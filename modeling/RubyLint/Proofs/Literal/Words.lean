import RubyLint.Proofs.Literal.Quoting

/-!
# Lists of literals in single quotes

Texts in single quotes with commas between them are read back as a list of bodies.  A text that is put
between the quotes as it stands is the body of a literal, and denotes itself, only if it has no quote
and no backslashes that mean something there.

* `listed`, `readLiterals`      the list of some bodies, and the bodies of a list;
* `readLiterals_eq_some_iff`    reading accepts exactly the lists of bodies that end at their quotes;
* `IsPlainWord`                 no quote, no two backslashes in a row and none at the end;
* `encloses_and_read_iff`       those are the bodies that denote themselves;
* `readLiterals_listed_iff`     so a list denotes the texts that it is made of only if all are plain.
-/

namespace RubyLint.Literal

/-! ## bodies, character by character -/

section
variable {quote c x : Char} {cs e b : List Char} {es bodies : List (List Char)}

theorem encloses_nil : Encloses quote [] := by
  refine ⟨fun _ hx => absurd hx List.not_mem_nil, ?_⟩
  by_cases hquote : quote = '\\'
  · subst hquote
    exact List.mem_singleton_self _
  · rw [List.nil_append, bare_cons hquote]
    exact List.mem_cons_self

theorem encloses_escape_iff : Encloses quote ('\\' :: x :: cs) ↔ Encloses quote cs := by
  constructor
  · rintro ⟨hquote, hcloses⟩
    rw [bare_escape] at hquote
    exact ⟨hquote, hcloses⟩
  · rintro ⟨hquote, hcloses⟩
    exact ⟨by rwa [bare_escape], hcloses⟩

theorem encloses_cons_iff (hc : c ≠ '\\') :
    Encloses quote (c :: cs) ↔ c ≠ quote ∧ Encloses quote cs := by
  constructor
  · rintro ⟨hquote, hcloses⟩
    rw [bare_cons hc] at hquote
    obtain ⟨hne, hquote⟩ := List.forall_mem_cons.1 hquote
    rw [List.cons_append, bare_cons hc] at hcloses
    refine ⟨hne, hquote, (List.mem_cons.1 hcloses).resolve_left fun h => hne ?_⟩
    exact (congrArg Prod.fst h).symm
  · rintro ⟨hne, hquote, hcloses⟩
    refine ⟨by rw [bare_cons hc]; exact List.forall_mem_cons.2 ⟨hne, hquote⟩, ?_⟩
    rw [List.cons_append, bare_cons hc]
    exact List.mem_cons_of_mem _ hcloses

theorem not_encloses_backslash : ¬ Encloses quote ['\\'] := fun h =>
  absurd h.closes List.not_mem_nil

/-! ## lists -/

/-- the bodies as literals, with commas between them -/
def listed (bodies : List (List Char)) : List Char :=
  [',', ' '].intercalate (bodies.map fun body => '\x27' :: (body ++ ['\x27']))

def readBodies (body : List Char) : List Char → Option (List (List Char))
  | ['\x27'] => some [body]
  | '\x27' :: ',' :: ' ' :: '\x27' :: cs => (readBodies [] cs).map (body :: ·)
  | '\x27' :: _ => none
  | '\\' :: c :: cs => readBodies (body ++ ['\\', c]) cs
  | c :: cs => readBodies (body ++ [c]) cs
  | [] => none

/-- The bodies of a list of literals; none if it is no such list. -/
def readLiterals : List Char → Option (List (List Char))
  | [] => some []
  | '\x27' :: cs => readBodies [] cs
  | _ => none

def restOfList (bodies : List (List Char)) : List Char :=
  bodies.flatMap fun body => ',' :: ' ' :: '\x27' :: (body ++ ['\x27'])

theorem restOfList_cons (e : List Char) (es : List (List Char)) :
    restOfList (e :: es) = ',' :: ' ' :: '\x27' :: (e ++ '\x27' :: restOfList es) := by
  rw [restOfList, List.flatMap_cons]
  simp only [List.cons_append, List.append_assoc, List.nil_append]
  rfl

theorem listed_cons (e : List Char) (es : List (List Char)) :
    listed (e :: es) = '\x27' :: (e ++ '\x27' :: restOfList es) := by
  induction es generalizing e with
  | nil =>
    show '\x27' :: (e ++ ['\x27']) ++ [] = _
    rw [List.append_nil]
    rfl
  | cons e' es ih =>
    have hnext : listed (e :: e' :: es) =
        '\x27' :: (e ++ ['\x27']) ++ ([',', ' '] ++ listed (e' :: es)) := rfl
    rw [hnext, ih, restOfList_cons]
    simp only [List.cons_append, List.append_assoc, List.nil_append]

theorem readBodies_escape (b : List Char) (c : Char) (cs : List Char) :
    readBodies b ('\\' :: c :: cs) = readBodies (b ++ ['\\', c]) cs := rfl

theorem readBodies_cons (hc : c ≠ '\\') (hquote : c ≠ '\x27') (b cs : List Char) :
    readBodies b (c :: cs) = readBodies (b ++ [c]) cs := by
  rw [readBodies] <;> simp_all

theorem readBodies_append (h : Encloses '\x27' e) (b cs : List Char) :
    readBodies b (e ++ '\x27' :: cs) = readBodies (b ++ e) ('\x27' :: cs) := by
  induction e using bare.induct generalizing b with
  | case1 => rw [List.append_nil, List.nil_append]
  | case2 x e ih =>
    show readBodies b ('\\' :: x :: (e ++ '\x27' :: cs)) = _
    rw [readBodies_escape, ih (encloses_escape_iff.1 h), List.append_assoc]
    rfl
  | case3 c e hplain ih =>
    by_cases hc : c = '\\'
    · subst hc
      cases e with
      | nil => exact absurd h not_encloses_backslash
      | cons x e => exact (hplain x e rfl rfl).elim
    · obtain ⟨hquote, h⟩ := (encloses_cons_iff hc).1 h
      show readBodies b (c :: (e ++ '\x27' :: cs)) = _
      rw [readBodies_cons hc hquote, ih h, List.append_assoc]
      rfl

theorem readBodies_restOfList (b : List Char) (h : ∀ e ∈ es, Encloses '\x27' e) :
    readBodies b ('\x27' :: restOfList es) = some (b :: es) := by
  induction es generalizing b with
  | nil => rfl
  | cons e es ih =>
    obtain ⟨he, hes⟩ := List.forall_mem_cons.1 h
    rw [restOfList_cons]
    show (readBodies [] (e ++ '\x27' :: restOfList es)).map (b :: ·) = _
    rw [readBodies_append he, ih _ hes]
    rfl

/-- what has been read is the body so far with some text, and then the bodies of a list -/
theorem exists_of_readBodies (h : readBodies b cs = some bodies) : ∃ e es,
    bodies = (b ++ e) :: es ∧ cs = e ++ '\x27' :: restOfList es ∧ Encloses '\x27' e ∧
      ∀ e ∈ es, Encloses '\x27' e := by
  fun_induction readBodies b cs generalizing bodies with
  | case1 b =>
    obtain rfl := Option.some.inj h
    exact ⟨[], [], by rw [List.append_nil], rfl, encloses_nil, fun _ he => absurd he List.not_mem_nil⟩
  | case2 b cs ih =>
    obtain ⟨bodies, hbodies, rfl⟩ := Option.map_eq_some_iff.1 h
    obtain ⟨e, es, rfl, rfl, he, hes⟩ := ih hbodies
    refine ⟨[], e :: es, by rw [List.append_nil]; rfl, ?_, encloses_nil,
      List.forall_mem_cons.2 ⟨he, hes⟩⟩
    rw [restOfList_cons, List.nil_append]
  | case3 => cases h
  | case4 b c cs ih =>
    obtain ⟨e, es, rfl, rfl, he, hes⟩ := ih h
    exact ⟨'\\' :: c :: e, es, by simp, rfl, encloses_escape_iff.2 he, hes⟩
  | case5 b c cs h₁ h₂ h₃ h₄ ih =>
    obtain ⟨e, es, rfl, rfl, he, hes⟩ := ih h
    have hc : c ≠ '\\' := fun hc => by
      cases e with
      | nil => exact h₄ _ _ hc rfl
      | cons x e => exact h₄ _ _ hc rfl
    refine ⟨c :: e, es, ?_, rfl, (encloses_cons_iff hc).2 ⟨h₃, he⟩, hes⟩
    rw [List.append_assoc]
    rfl
  | case6 => cases h

/-- **reading accepts exactly the lists of bodies that end at their quotes** -/
theorem readLiterals_eq_some_iff :
    readLiterals cs = some bodies ↔ cs = listed bodies ∧ ∀ e ∈ bodies, Encloses '\x27' e := by
  constructor
  · intro h
    unfold readLiterals at h
    split at h
    · obtain rfl := Option.some.inj h
      exact ⟨rfl, fun _ he => absurd he List.not_mem_nil⟩
    · obtain ⟨e, es, rfl, rfl, he, hes⟩ := exists_of_readBodies h
      exact ⟨(listed_cons e es).symm, List.forall_mem_cons.2 ⟨he, hes⟩⟩
    · cases h
  · rintro ⟨rfl, h⟩
    cases bodies with
    | nil => rfl
    | cons e es =>
      obtain ⟨he, hes⟩ := List.forall_mem_cons.1 h
      rw [listed_cons]
      show readBodies [] (e ++ '\x27' :: restOfList es) = _
      rw [readBodies_append he, readBodies_restOfList _ hes]
      rfl

/-! ## bodies that denote themselves -/

/-- no quote, no two backslashes in a row, and none at the end -/
structure IsPlainWord (e : List Char) : Prop where
  noQuote : '\x27' ∉ e
  noPair : ¬ ['\\', '\\'] <:+: e
  noLast : e.getLast? ≠ some '\\'

theorem IsPlainWord.tail (h : IsPlainWord (c :: e)) : IsPlainWord e where
  noQuote hmem := h.noQuote (List.mem_cons_of_mem c hmem)
  noPair hpair := h.noPair (hpair.trans (List.suffix_cons c e).isInfix)
  noLast hlast := h.noLast (by rw [List.getLast?_cons, hlast]; rfl)

theorem isPlainWord_cons_iff (hc : c ≠ '\\') :
    IsPlainWord (c :: e) ↔ c ≠ '\x27' ∧ IsPlainWord e := by
  constructor
  · exact fun h => ⟨fun hquote => h.noQuote (hquote ▸ List.mem_cons_self), h.tail⟩
  · rintro ⟨hquote, h⟩
    refine ⟨fun hmem => ?_, fun hpair => ?_, fun hlast => ?_⟩
    · exact (List.mem_cons.1 hmem).elim (fun heq => hquote heq.symm) h.noQuote
    · rcases List.infix_cons_iff.1 hpair with hfront | hinner
      · exact hc (List.cons_prefix_cons.1 hfront).1.symm
      · exact h.noPair hinner
    · rw [List.getLast?_cons] at hlast
      cases he : e.getLast? with
      | none =>
        rw [he] at hlast
        exact hc (Option.some.inj hlast)
      | some y =>
        rw [he] at hlast
        exact h.noLast (he.trans hlast)

theorem isPlainWord_escape_iff :
    IsPlainWord ('\\' :: x :: e) ↔ x ≠ '\\' ∧ IsPlainWord (x :: e) := by
  constructor
  · refine fun h => ⟨fun hx => h.noPair ?_, h.tail⟩
    rw [hx]
    exact (List.prefix_append ['\\', '\\'] e).isInfix
  · rintro ⟨hx, h⟩
    refine ⟨fun hmem => ?_, fun hpair => ?_, fun hlast => ?_⟩
    · exact (List.mem_cons.1 hmem).elim (fun heq => absurd heq (by decide)) h.noQuote
    · rcases List.infix_cons_iff.1 hpair with hfront | hinner
      · have hnext := (List.cons_prefix_cons.1 hfront).2
        exact hx (List.cons_prefix_cons.1 hnext).1.symm
      · exact h.noPair hinner
    · rw [List.getLast?_cons_cons] at hlast
      exact h.noLast hlast

theorem length_readSingleQuoted_le (e : List Char) : (readSingleQuoted e).length ≤ e.length := by
  fun_induction readSingleQuoted e with
  | case1 cs ih => simp only [List.length_cons]; omega
  | case2 cs ih => simp only [List.length_cons]; omega
  | case3 c cs _ _ ih => simp only [List.length_cons]; omega
  | case4 => exact Nat.le_refl _

theorem readSingleQuoted_eq_of_length (h : (readSingleQuoted e).length = e.length) :
    readSingleQuoted e = e := by
  fun_induction readSingleQuoted e with
  | case1 cs ih =>
    have hle := length_readSingleQuoted_le cs
    simp only [List.length_cons] at h
    omega
  | case2 cs ih =>
    have hle := length_readSingleQuoted_le cs
    simp only [List.length_cons] at h
    omega
  | case3 c cs _ _ ih => rw [ih (Nat.succ.inj h)]
  | case4 => rfl

theorem readSingleQuoted_escape (hx : x ≠ '\\') (hquote : x ≠ '\x27') (cs : List Char) :
    readSingleQuoted ('\\' :: x :: cs) = '\\' :: x :: readSingleQuoted cs := by
  rw [readSingleQuoted, readSingleQuoted_cons hx] <;> simp_all

theorem readSingleQuoted_escape_ne (h : x = '\\' ∨ x = '\x27') (cs : List Char) :
    readSingleQuoted ('\\' :: x :: cs) ≠ '\\' :: x :: cs := by
  have hread : readSingleQuoted ('\\' :: x :: cs) = x :: readSingleQuoted cs := by
    rcases h with rfl | rfl <;> rfl
  intro heq
  have hlength := congrArg List.length (hread.symm.trans heq)
  have hle := length_readSingleQuoted_le cs
  simp only [List.length_cons] at hlength
  omega

/-- **the bodies that are whole and denote themselves** -/
theorem encloses_and_read_iff :
    Encloses '\x27' e ∧ readSingleQuoted e = e ↔ IsPlainWord e := by
  induction e using bare.induct with
  | case1 => exact iff_of_true ⟨encloses_nil, rfl⟩ ⟨List.not_mem_nil, by decide, by decide⟩
  | case2 x e ih =>
    rw [encloses_escape_iff, isPlainWord_escape_iff]
    by_cases hx : x = '\\'
    · exact iff_of_false (fun h => readSingleQuoted_escape_ne (.inl hx) e h.2) fun h => h.1 hx
    by_cases hquote : x = '\x27'
    · refine iff_of_false (fun h => readSingleQuoted_escape_ne (.inr hquote) e h.2) fun h => ?_
      exact h.2.noQuote (hquote ▸ List.mem_cons_self)
    rw [readSingleQuoted_escape hx hquote, isPlainWord_cons_iff hx, ← ih, List.cons_inj_right,
      List.cons_inj_right]
    exact ⟨fun h => ⟨hx, hquote, h⟩, fun h => h.2.2⟩
  | case3 c e hplain ih =>
    by_cases hc : c = '\\'
    · subst hc
      cases e with
      | nil => exact iff_of_false (fun h => not_encloses_backslash h.1) fun h => h.noLast rfl
      | cons x e => exact (hplain x e rfl rfl).elim
    rw [encloses_cons_iff hc, readSingleQuoted_cons hc, isPlainWord_cons_iff hc, ← ih,
      List.cons_inj_right, and_assoc]

/-! ## lists of words -/

theorem length_restOfList_le (es : List (List Char)) :
    (restOfList (es.map readSingleQuoted)).length ≤ (restOfList es).length := by
  induction es with
  | nil => exact Nat.le_refl _
  | cons e es ih =>
    have hle := length_readSingleQuoted_le e
    rw [List.map_cons, restOfList_cons, restOfList_cons]
    simp only [List.length_cons, List.length_append]
    omega

theorem readSingleQuoted_eq_of_length_restOfList
    (h : (restOfList (es.map readSingleQuoted)).length = (restOfList es).length) :
    ∀ e ∈ es, readSingleQuoted e = e := by
  induction es with
  | nil => exact fun _ he => absurd he List.not_mem_nil
  | cons e es ih =>
    have hle := length_readSingleQuoted_le e
    have hrest := length_restOfList_le es
    rw [List.map_cons, restOfList_cons, restOfList_cons] at h
    simp only [List.length_cons, List.length_append] at h
    exact List.forall_mem_cons.2 ⟨readSingleQuoted_eq_of_length (by omega), ih (by omega)⟩

/-- **A list of texts between quotes denotes these texts only if all of them are plain.** -/
theorem readLiterals_listed_iff :
    (readLiterals (listed es)).map (List.map readSingleQuoted) = some es ↔
      ∀ e ∈ es, IsPlainWord e := by
  constructor
  · intro h
    obtain ⟨bodies, hbodies, hread⟩ := Option.map_eq_some_iff.1 h
    obtain ⟨hlisted, hencloses⟩ := readLiterals_eq_some_iff.1 hbodies
    -- as long as they were, the bodies have lost nothing
    have hsame : ∀ b ∈ bodies, readSingleQuoted b = b := by
      cases bodies with
      | nil => exact fun _ hb => absurd hb List.not_mem_nil
      | cons b bodies =>
        have hlength := congrArg List.length hlisted
        have hle := length_readSingleQuoted_le b
        have hrest := length_restOfList_le bodies
        rw [← hread, List.map_cons, listed_cons, listed_cons] at hlength
        simp only [List.length_cons, List.length_append] at hlength
        exact List.forall_mem_cons.2 ⟨readSingleQuoted_eq_of_length (by omega),
          readSingleQuoted_eq_of_length_restOfList (by omega)⟩
    have hid : bodies.map readSingleQuoted = bodies.map id := List.map_congr_left hsame
    have heq : bodies = es := (hid.trans (List.map_id bodies)).symm.trans hread
    exact fun e he => encloses_and_read_iff.1 ⟨hencloses e (heq ▸ he), hsame e (heq ▸ he)⟩
  · intro h
    have hboth := fun e he => encloses_and_read_iff.2 (h e he)
    have hid : es.map readSingleQuoted = es.map id :=
      List.map_congr_left fun e he => (hboth e he).2
    rw [readLiterals_eq_some_iff.2 ⟨rfl, fun e he => (hboth e he).1⟩, Option.map_some, hid,
      List.map_id]

end

end RubyLint.Literal
