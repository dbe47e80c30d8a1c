import RubyLint.Proofs.Rule.Calls
import RubyLint.Proofs.Rule.Looping

/-!
# The rules about conditions and literals

`shortCircuitAnd` lets two operands of a chain of conjunctions change places: the second one of the
chain as a whole, and one that stands in its first operand.  `collectionLiteralInMethod` and
`collectionLiteralInLoop` find the receiver of the call that they are asked about.
-/

namespace RubyLint.Rule

section
variable {t : SyntaxTree} {n m : Node t}

/-! ## constants and definedness -/

theorem branchVerdict_answers (ht : t.WellFormed) (n : Node t) :
    Verdict.Answers (fun f => f.SoundAt n) (branchVerdict n) := by
  rw [branchVerdict]
  split
  · exact .found (.plain (ht.encloses_span n) _)
  · exact .nothing

theorem conditionalDefinition_sound : conditionalDefinition.Sound :=
  sound_of_answers (fun _ _ => rfl) fun ht _ n => branchVerdict_answers ht n

def reflectionMethods : List String :=
  ["class_variable_defined?", "const_defined?", "instance_variable_defined?"]

def reflectionCheckCompiled : Pattern.Compiled reflectionCheck := .ofText
  (.around (.kind .send)
    [.builtin .absent,
      .capture 0 (.union [.literal (.sym "class_variable_defined?"),
        .literal (.sym "const_defined?"), .literal (.sym "instance_variable_defined?")]),
      .capture 1 (.builtin .basicLiteral)]
    (.exactly (.kind .trueLiteral) []) .optional none [])
  (by decide +kernel)

theorem definedVerdict_answers (ht : t.WellFormed) (n : Node t) :
    Verdict.Answers (fun f => f.SoundAt n) (definedVerdict n) := by
  rw [definedVerdict]
  split
  case h_2 => exact .nothing
  next caps hm =>
    split
    case h_2 => exact .nothing
    split
    case h_2 => exact .nothing
    next expression _ =>
      split
      case h_2 => exact .nothing
      next selector hselector =>
        have hn := (reflectionCheckCompiled.sends reflectionMethods rfl hm).orders ht (by decide)
        refine .bind (exists_givenName ht expression) fun name => .found ?_
        exact .replacing (ht.encloses_selector hn hselector) (ht.encloses_span n) _ _

theorem defined_sound : defined.Sound :=
  sound_of_answers (fun _ _ => rfl) fun ht _ n => definedVerdict_answers ht n

/-! ## conjunctions -/

theorem covers_of_lastDear? (h : lastDear? n = some m) : n.Covers m := by
  fun_induction lastDear? n with
  | case1 => cases h
  | case2 => cases h
  | case3 n right hright left hleft hdear =>
    cases h
    exact .through (Node.mem_childNodes_of_childNode? hright) (.self m)
  | case4 n right hright left hleft hdear hkind ih =>
    exact .through (Node.mem_childNodes_of_childNode? hleft) (ih h)
  | case5 => cases h

theorem exchanging_answers (ht : t.WellFormed) {first second : Node t} {P : Prop}
    (h : P → n.Encloses first.span ∧ n.Encloses second.span ∧ first.span.Beside second.span) :
    Verdict.Answers (fun f => P → f.SoundAt n) (exchanging n first second) := by
  obtain ⟨text, htext⟩ := ht.exists_source first
  obtain ⟨text', htext'⟩ := ht.exists_source second
  have hswap : Correction.empty.swap first second =
      some ((Correction.empty.replace first.span text').replace second.span text) := by
    rw [Correction.swap, htext, htext']
    rfl
  unfold exchanging
  rw [hswap]
  refine .found fun hp => ?_
  obtain ⟨hfirst, hsecond, hbeside⟩ := h hp
  exact (Finding.SoundAt.plain (ht.encloses_span n) _).withCorrection (.two hfirst hsecond hbeside _ _)

/-- The verdict goes by the first two children, and only of those of a conjunction it is known that
there is text in them. -/
theorem conjunctionVerdict_answers (ht : t.WellFormed) (n : Node t) :
    Verdict.Answers (fun f => n.kind = .conjunction → f.SoundAt n) (conjunctionVerdict n) := by
  rw [conjunctionVerdict]
  split
  case h_1 => exact .nothing
  next left right hoperands =>
    obtain ⟨l, hleft, hoperands⟩ := Option.bind_eq_some_iff.1 hoperands
    obtain ⟨r, hright, hoperands⟩ := Option.bind_eq_some_iff.1 hoperands
    cases hoperands
    have hleft' := Node.mem_childNodes_of_childNode? hleft
    have hright' := Node.mem_childNodes_of_childNode? hright
    have hapart := ht.apart_of_childNode? Nat.zero_lt_one hleft hright
    split
    case isTrue => exact .nothing
    split
    · split
      case isTrue => exact .nothing
      refine exchanging_answers ht fun hkind => ?_
      exact ⟨ht.encloses_child hleft', ht.encloses_child hright', hapart,
        Or.inl (ht.operand_pos n hkind left hleft')⟩
    · split
      case h_2 => exact .nothing
      next dear hdear =>
        refine exchanging_answers ht fun hkind => ?_
        have hinner := ht.encloses_covered (covers_of_lastDear? hdear)
        -- the operand stands in the first one, and so beside the second
        have hbeside : right.span.Apart dear.span := by
          have hle := hinner.le
          unfold Span.Apart at hapart ⊢
          omega
        exact ⟨ht.encloses_child hright', (ht.encloses_child hleft').trans hinner, hbeside,
          Or.inl (ht.operand_pos n hkind right hright')⟩

theorem shortCircuitAnd_soundIfAsked : shortCircuitAnd.SoundIfAsked :=
  soundIfAsked_of_answers (fun _ _ => rfl) fun ht _ n =>
    (conjunctionVerdict_answers ht n).imp fun _ hf htriggers _ =>
      hf (List.mem_singleton.1 (List.contains_iff_mem.1 htriggers))

/-! ## literals -/

theorem encloses_hoistable? (ht : t.WellFormed) {size : Nat} {literal : Node t} {className : String}
    (h : hoistable? n size = some (literal, className)) : n.Encloses literal.span := by
  obtain ⟨receiver, hreceiver, h⟩ := Option.bind_eq_some_iff.1 h
  obtain ⟨method, -, h⟩ := Option.bind_eq_some_iff.1 h
  obtain ⟨name, -, h⟩ := Option.bind_eq_some_iff.1 h
  split at h
  · cases h
    exact ht.encloses_child (Node.mem_childNodes_of_receiver? hreceiver)
  · cases h

theorem literalInMethodVerdict_answers (ht : t.WellFormed) (size : Nat) (n : Node t) :
    Verdict.Answers (fun f => f.SoundAt n) (literalInMethodVerdict size n) := by
  rw [literalInMethodVerdict]
  split
  case h_2 => exact .nothing
  next literal className hliteral =>
    split
    case isTrue => exact .nothing
    exact .found (.plain (encloses_hoistable? ht hliteral) _)

theorem collectionLiteralInMethod_sound : collectionLiteralInMethod.Sound :=
  sound_of_answers (fun _ _ => rfl) fun ht context n =>
    literalInMethodVerdict_answers ht context.methodLiteralSize n

theorem literalInLoopVerdict_answers (ht : t.WellFormed) (size : Nat) (target : RubyVersion)
    (n : Node t) : Verdict.Answers (fun f => f.SoundAt n) (literalInLoopVerdict size target n) := by
  rw [literalInLoopVerdict]
  split
  case h_2 => exact .nothing
  next literal className hliteral =>
    split
    case isTrue => exact .nothing
    have hasked := SyntaxTree.Reads.anyM fun a (_ : a ∈ literal.ancestors) => reads_isLoop a literal
    refine .bind (hasked.of_wellFormed ht) fun looping => ?_
    split
    case isTrue => exact .nothing
    exact .found (.plain (encloses_hoistable? ht hliteral) _)

theorem collectionLiteralInLoop_sound : collectionLiteralInLoop.Sound :=
  sound_of_answers (fun _ _ => rfl) fun ht context n =>
    literalInLoopVerdict_answers ht context.loopLiteralSize context.target n

end

end RubyLint.Rule
