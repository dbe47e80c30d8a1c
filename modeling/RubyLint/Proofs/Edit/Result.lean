import RubyLint.Edit.Correction
import RubyLint.Proofs.Edit.AnyOrder
import RubyLint.Proofs.Edit.Splice
import RubyLint.Proofs.Syntax.Placement

/-!
# What the edits make of a text

`Makes n cs es text`: the edits `es`, of a text whose part from the offset `n` on is `cs`, make
`text` of that part.  It follows the edits, one after the other, and says how each of them cuts the
text; whatever is known of the edits of a set is read off it.

* `exists_makes`          edits that fit and stand one behind the other make some text;
* `spliceFrom_of_makes`   the pass with a cursor gives that text;
* `spliceEach?_of_makes`  so do single edits, made from the last to the first;
* `layout_of_makes`       so does a walk over the bytes, each of which is kept unless an edit covers
                          it;
* `apply_of_apart`        edits of spans that stand apart are made, in whatever order they are asked
                          for;
* `Exchanged`             two spans of a text with their texts exchanged.
-/

namespace RubyLint

open Text (byteLength byteLength_append isBoundary slice)

namespace Text

theorem slice_append (front middle back : List Char) :
    slice (front ++ middle ++ back) (byteLength front) (byteLength front + byteLength middle) =
      some middle := by
  rw [slice, if_pos (Nat.le_add_right _ _), List.append_assoc, splitAtByte_append,
    Nat.add_sub_cancel_left]
  show ((splitAtByte (middle ++ back) (byteLength middle)).bind fun r => some r.1) = some middle
  rw [splitAtByte_append]
  rfl

def bytes (cs : List Char) : List UInt8 := (String.ofList cs).toByteArray.data.toList

theorem bytes_eq_flatMap (cs : List Char) : bytes cs = cs.flatMap String.utf8EncodeChar := by
  rw [bytes, String.toByteArray_ofList, List.utf8Encode, List.data_toByteArray]

theorem bytes_append (a b : List Char) : bytes (a ++ b) = bytes a ++ bytes b := by
  simp only [bytes_eq_flatMap, List.flatMap_append]

theorem length_bytes (cs : List Char) : (bytes cs).length = byteLength cs := by
  rw [bytes_eq_flatMap]
  induction cs with
  | nil => rfl
  | cons c cs ih =>
    rw [List.flatMap_cons, List.length_append, String.length_utf8EncodeChar, ih, byteLength_cons]

end Text

open Text (bytes bytes_append length_bytes slice_append)

/-! ## one edit -/

/-- the text with one edit made; none if the span of the edit does not cut it -/
def Edit.splice? (e : Edit) (cs : List Char) : Option (List Char) := do
  let front ← slice cs 0 e.span.start
  let _ ← slice cs e.span.start e.span.stop
  let back ← slice cs e.span.stop (byteLength cs)
  return front ++ e.replacement.toList ++ back

theorem Edit.splice?_append {e : Edit} {front gone back : List Char}
    (hstart : e.span.start = byteLength front)
    (hstop : e.span.stop = byteLength front + byteLength gone) :
    e.splice? (front ++ gone ++ back) = some (front ++ e.replacement.toList ++ back) := by
  have hfront : slice (front ++ gone ++ back) 0 (byteLength front) = some front := by
    simpa [Text.byteLength_nil] using slice_append [] front (gone ++ back)
  have hback : slice (front ++ gone ++ back) (byteLength front + byteLength gone)
      (byteLength (front ++ gone ++ back)) = some back := by
    simpa [byteLength_append, Nat.add_assoc] using slice_append (front ++ gone) back []
  rw [splice?, hstart, hstop, hfront, slice_append, hback]
  rfl

namespace EditSet

/-- the text with the edits made one at a time, from the last to the first -/
def spliceEach? (cs : List Char) (es : List Edit) : Option (List Char) :=
  es.foldrM (fun e text => e.splice? text) cs

/-! ## the parts of an edited text -/

/-- The edits, of a text whose part from the offset on is the first one given, make the second of
it: some characters are kept, some are gone and have the text of the edit in their place, and so on
behind them. -/
inductive Makes : Nat → List Char → List Edit → List Char → Prop
  | rest (n : Nat) (cs : List Char) : Makes n cs [] cs
  | edit {n : Nat} {e : Edit} {es : List Edit} {back made : List Char} (kept gone : List Char)
      (hstart : e.span.start = n + byteLength kept)
      (hstop : e.span.stop = e.span.start + byteLength gone)
      (h : Makes e.span.stop back es made) :
      Makes n (kept ++ gone ++ back) (e :: es) (kept ++ e.replacement.toList ++ made)

theorem exists_makes (front : List Char) {cs : List Char} {es : List Edit}
    (hfit : ∀ e ∈ es, e.Fits (front ++ cs)) (hle : ∀ e ∈ es, byteLength front ≤ e.span.start)
    (hapart : es.Pairwise fun e f => e.span.stop ≤ f.span.start) :
    ∃ made, Makes (byteLength front) cs es made := by
  induction es generalizing front cs with
  | nil => exact ⟨cs, .rest _ cs⟩
  | cons e es ih =>
    obtain ⟨hbehind, hes⟩ := List.pairwise_cons.1 hapart
    obtain ⟨hspan, hstart, hstop⟩ := hfit e List.mem_cons_self
    -- both ends of the edit cut the text behind the front
    obtain ⟨before, after, hcut, hbefore⟩ := Text.isBoundary_iff.1 hstart
    have hfront : byteLength front ≤ byteLength before := hbefore ▸ hle e List.mem_cons_self
    obtain ⟨kept, rfl, rfl⟩ := Text.exists_append_of_byteLength_le hcut hfront
    obtain ⟨before', back, hcut', hbefore'⟩ := Text.isBoundary_iff.1 hstop
    have hinner : byteLength (front ++ kept) ≤ byteLength before' := by omega
    rw [← List.append_assoc] at hcut'
    obtain ⟨gone, rfl, rfl⟩ := Text.exists_append_of_byteLength_le hcut' hinner
    have hsame : front ++ (kept ++ (gone ++ back)) = (front ++ kept ++ gone) ++ back := by
      simp only [List.append_assoc]
    rw [hsame] at hfit
    obtain ⟨made, hmade⟩ := ih _ (fun f hf => hfit f (List.mem_cons_of_mem e hf))
      (fun f hf => hbefore' ▸ hbehind f hf) hes
    rw [hbefore'] at hmade
    refine ⟨kept ++ e.replacement.toList ++ made, ?_⟩
    rw [← List.append_assoc]
    refine Makes.edit kept gone ?_ ?_ hmade
    · rw [← hbefore, byteLength_append]
    · rw [← hbefore', ← hbefore, byteLength_append]

theorem Makes.exists_parts {n : Nat} {cs text : List Char} {e : Edit} {es : List Edit}
    (h : Makes n cs (e :: es) text) : ∃ kept gone back made, cs = kept ++ gone ++ back ∧
      e.span.start = n + byteLength kept ∧ e.span.stop = e.span.start + byteLength gone ∧
      Makes e.span.stop back es made ∧ text = kept ++ e.replacement.toList ++ made := by
  cases h with
  | edit kept gone hstart hstop h => exact ⟨kept, gone, _, _, rfl, hstart, hstop, h, rfl⟩

theorem Makes.eq_of_nil {n : Nat} {cs text : List Char} (h : Makes n cs [] text) : text = cs := by
  cases h
  rfl

theorem Makes.le_start {n : Nat} {cs made : List Char} {es : List Edit} (h : Makes n cs es made) :
    ∀ e ∈ es, n ≤ e.span.start := by
  induction h with
  | rest => exact fun e he => absurd he List.not_mem_nil
  | edit kept gone hstart hstop _ ih =>
    intro f hf
    rcases List.mem_cons.1 hf with rfl | hf
    · omega
    · have := ih f hf
      omega

/-- the pass over the text, from the cursor on -/
theorem spliceFrom_of_makes (front : List Char) {cs made : List Char} {es : List Edit}
    (h : Makes (byteLength front) cs es made) :
    spliceFrom (front ++ cs) (byteLength front) es = made := by
  generalize hn : byteLength front = n at h
  induction h generalizing front with
  | rest n cs =>
    rw [spliceFrom, ← hn]
    exact between_eq_of_slice (by simpa [byteLength_append] using slice_append front cs [])
  | @edit n e es back made kept gone hstart hstop _ ih =>
    have hkept : between (front ++ (kept ++ gone ++ back)) n e.span.start = kept := by
      rw [hstart, ← hn]
      exact between_eq_of_slice (by simpa using slice_append front kept (gone ++ back))
    have hsame : front ++ (kept ++ gone ++ back) = (front ++ kept ++ gone) ++ back := by
      simp only [List.append_assoc]
    rw [spliceFrom, hkept, hsame, ih _ (by rw [byteLength_append, byteLength_append]; omega)]

/-- single edits, the last one first -/
theorem spliceEach?_of_makes (front : List Char) {cs made : List Char} {es : List Edit}
    (h : Makes (byteLength front) cs es made) :
    spliceEach? (front ++ cs) es = some (front ++ made) := by
  generalize hn : byteLength front = n at h
  induction h generalizing front with
  | rest n cs => rfl
  | @edit n e es back made kept gone hstart hstop _ ih =>
    have hlength : byteLength (front ++ kept) = e.span.start := by rw [byteLength_append]; omega
    have hsame : front ++ (kept ++ gone ++ back) = (front ++ kept ++ gone) ++ back := by
      simp only [List.append_assoc]
    -- what has been made of the text behind the edit does not move its ends
    have hbehind : spliceEach? (front ++ (kept ++ gone ++ back)) es =
        some ((front ++ kept) ++ gone ++ made) := by
      rw [hsame, ih _ (by rw [byteLength_append]; omega)]
    have honce : e.splice? ((front ++ kept) ++ gone ++ made) =
        some ((front ++ kept) ++ e.replacement.toList ++ made) :=
      e.splice?_append hlength.symm (by omega)
    rw [spliceEach?, List.foldrM_cons, ← spliceEach?, hbehind]
    show e.splice? _ = _
    rw [honce]
    simp only [List.append_assoc]

/-! ## byte by byte -/

/-- a byte that the edit replaces; one that inserts covers none -/
def covers (n : Nat) (e : Edit) : Bool := decide (e.span.start ≤ n) && decide (n < e.span.stop)

/-- what is put at an offset: first what is inserted there, then what stands for the bytes that are
replaced from there on -/
def placedAt (es : List Edit) (n : Nat) : List UInt8 :=
  ((es.filter fun e => e.isInsertion && e.span.start == n) ++
    es.filter fun e => !e.isInsertion && e.span.start == n).flatMap fun e =>
      bytes e.replacement.toList

/-- The bytes of a text from an offset on with the edits made: at every offset what is put there,
then the byte itself, unless an edit covers it. -/
def layout (es : List Edit) : Nat → List UInt8 → List UInt8
  | n, [] => placedAt es n
  | n, b :: bs =>
    placedAt es n ++ (if es.any (covers n) then [] else [b]) ++ layout es (n + 1) bs

section
variable {e : Edit} {es : List Edit} {n : Nat}

theorem placedAt_eq_nil (h : ∀ e ∈ es, e.span.start ≠ n) : placedAt es n = [] := by
  have hnone : ∀ kind : Edit → Bool, (es.filter fun e => kind e && e.span.start == n) = [] := by
    intro kind
    refine List.filter_eq_nil_iff.2 fun e he => ?_
    simp [h e he]
  rw [placedAt, hnone, hnone, List.append_nil, List.flatMap_nil]

theorem placedAt_cons_of_ne (h : e.span.start ≠ n) : placedAt (e :: es) n = placedAt es n := by
  simp [placedAt, h]

theorem placedAt_insertion (h : e.span.start = n) (hi : e.isInsertion = true) :
    placedAt (e :: es) n = bytes e.replacement.toList ++ placedAt es n := by
  simp [placedAt, h, hi]

theorem placedAt_replacement (h : e.span.start = n) (hi : e.isInsertion = false)
    (hes : ∀ f ∈ es, f.span.start ≠ n) : placedAt (e :: es) n = bytes e.replacement.toList := by
  have hrest := placedAt_eq_nil hes
  simp only [placedAt, List.flatMap_append, List.append_eq_nil_iff] at hrest
  simp [placedAt, h, hi, hrest.1, hrest.2]

theorem layout_keep (ks bs : List UInt8) (h : ∀ e ∈ es, n + ks.length ≤ e.span.start) :
    layout es n (ks ++ bs) = ks ++ layout es (n + ks.length) bs := by
  induction ks generalizing n with
  | nil => rfl
  | cons k ks ih =>
    have hlater : ∀ e ∈ es, n < e.span.start := fun e he => by
      have := h e he
      rw [List.length_cons] at this
      omega
    have hfree : es.any (covers n) = false := List.any_eq_false.2 fun e he => by
      have := Nat.not_le_of_lt (hlater e he)
      simp [covers, this]
    have hnext : ∀ e ∈ es, n + 1 + ks.length ≤ e.span.start := fun e he => by
      have := h e he
      rw [List.length_cons] at this
      omega
    rw [List.cons_append, layout, placedAt_eq_nil fun e he => Nat.ne_of_gt (hlater e he), hfree,
      ih hnext, List.length_cons, Nat.add_right_comm, Nat.add_assoc]
    rfl

theorem layout_drop (gs bs : List UInt8) (hstart : e.span.start < n)
    (hstop : n + gs.length ≤ e.span.stop) (hes : ∀ f ∈ es, e.span.stop ≤ f.span.start) :
    layout (e :: es) n (gs ++ bs) = layout (e :: es) (n + gs.length) bs := by
  induction gs generalizing n with
  | nil => rfl
  | cons g gs ih =>
    rw [List.length_cons] at hstop
    have hnone : placedAt (e :: es) n = [] := by
      rw [placedAt_cons_of_ne (Nat.ne_of_lt hstart)]
      refine placedAt_eq_nil fun f hf => ?_
      have := hes f hf
      omega
    have hcovered : (e :: es).any (covers n) = true := by
      have hle : e.span.start ≤ n := Nat.le_of_lt hstart
      have hlt : n < e.span.stop := by omega
      simp [covers, hle, hlt]
    rw [List.cons_append, layout, hnone, hcovered, ih (by omega) (by omega), List.length_cons,
      Nat.add_right_comm, Nat.add_assoc]
    rfl

theorem layout_cons_of_lt (bs : List UInt8) (hstart : e.span.start < n) (hstop : e.span.stop ≤ n) :
    layout (e :: es) n bs = layout es n bs := by
  induction bs generalizing n with
  | nil => exact placedAt_cons_of_ne (Nat.ne_of_lt hstart)
  | cons b bs ih =>
    have huncovered : covers n e = false := by simp [covers, hstop]
    rw [layout, layout, placedAt_cons_of_ne (Nat.ne_of_lt hstart), List.any_cons, huncovered,
      Bool.false_or, ih (by omega) (by omega)]

theorem layout_edit (gs bs : List UInt8) (hstop : e.span.stop = e.span.start + gs.length)
    (hes : ∀ f ∈ es, e.span.stop ≤ f.span.start) :
    layout (e :: es) e.span.start (gs ++ bs) =
      bytes e.replacement.toList ++ layout es e.span.stop bs := by
  cases gs with
  | nil =>
    have hempty : e.span.start = e.span.stop := hstop.symm
    have hi : e.isInsertion = true := by simp [Edit.isInsertion, Span.isEmpty, hempty]
    cases bs with
    | nil =>
      rw [List.append_nil, layout, layout, ← hempty]
      exact placedAt_insertion rfl hi
    | cons b bs =>
      have huncovered : covers e.span.start e = false := by simp [covers, ← hempty]
      rw [List.nil_append, layout, placedAt_insertion rfl hi, List.any_cons, huncovered,
        Bool.false_or, layout_cons_of_lt bs (Nat.lt_add_one _) (by omega), ← hempty, layout]
      simp only [List.append_assoc]
  | cons g gs =>
    rw [List.length_cons] at hstop
    have hi : e.isInsertion = false := by simp [Edit.isInsertion, Span.isEmpty]; omega
    have hlater : ∀ f ∈ es, f.span.start ≠ e.span.start := fun f hf => by
      have := hes f hf
      omega
    have hcovered : (e :: es).any (covers e.span.start) = true := by
      have hlt : e.span.start < e.span.stop := by omega
      simp [covers, hlt]
    have hend : e.span.start + 1 + gs.length = e.span.stop := by omega
    rw [List.cons_append, layout, placedAt_replacement rfl hi hlater, hcovered, if_pos rfl,
      List.append_nil, layout_drop gs bs (Nat.lt_add_one _) (Nat.le_of_eq hend) hes, hend,
      layout_cons_of_lt bs (by omega) (Nat.le_refl _)]

end

/-- the bytes of the text, one after the other -/
theorem layout_of_makes {n : Nat} {cs made : List Char} {es : List Edit}
    (h : Makes n cs es made) : layout es n (bytes cs) = bytes made := by
  induction h with
  | rest n cs =>
    have hkeep : layout [] n (bytes cs ++ []) = bytes cs ++ layout [] (n + (bytes cs).length) [] :=
      layout_keep (bytes cs) [] fun e he => absurd he List.not_mem_nil
    rw [List.append_nil] at hkeep
    rw [hkeep, layout, placedAt_eq_nil fun e he => absurd he List.not_mem_nil, List.append_nil]
  | @edit n e es back made kept gone hstart hstop h ih =>
    have hbehind : ∀ f ∈ es, e.span.stop ≤ f.span.start := h.le_start
    have hlater : ∀ f ∈ e :: es, n + (bytes kept).length ≤ f.span.start := by
      intro f hf
      rw [length_bytes, ← hstart]
      rcases List.mem_cons.1 hf with rfl | hf
      · exact Nat.le_refl _
      · have := hbehind f hf
        omega
    rw [bytes_append, bytes_append, bytes_append, bytes_append, List.append_assoc,
      layout_keep _ _ hlater, length_bytes, ← hstart,
      layout_edit _ _ (by rw [length_bytes]; exact hstop) hbehind, ih, List.append_assoc]

/-! ## sets -/

theorem apply_of_makes {s : EditSet} {source : String} {made : List Char}
    (hnone : s.fault? source.toList = none) (h : Makes 0 source.toList s.edits made) :
    s.apply source = .ok (String.ofList made) := by
  have hsplice : spliceFrom source.toList 0 s.edits = made := spliceFrom_of_makes [] h
  rw [apply, hnone, hsplice]

theorem Ordered.makes_of_apply {s : EditSet} {source text : String} (h : s.Ordered)
    (ha : s.apply source = .ok text) : Makes 0 source.toList s.edits text.toList := by
  cases hfault : s.fault? source.toList with
  | some err =>
    rw [apply, hfault] at ha
    cases ha
  | none =>
    have hfit := h.fault?_eq_none_iff.1 hfault
    obtain ⟨made, hmade⟩ := exists_makes [] hfit (fun e _ => Nat.zero_le e.span.start)
      (h.pairwise_stop_le_start hfit)
    rw [apply_of_makes hfault hmade] at ha
    cases ha
    rw [String.toList_ofList]
    exact hmade

/-- edits of spans with something in them, one behind the other, stand in order -/
theorem ordered_of_apart {es : List Edit} (hpos : ∀ e ∈ es, e.span.start < e.span.stop)
    (hapart : es.Pairwise fun e f => e.span.stop ≤ f.span.start) : (EditSet.mk es).Ordered := by
  refine ⟨hapart.imp_of_mem fun {e f} he _ hle => ?_, hapart.imp_of_mem fun {e f} he hf hle => ?_⟩
  · have hlt := hpos e he
    exact Span.notAfter_iff.2 (Or.inl (by omega))
  · have hwide : (e.span.start == e.span.stop) = false :=
      beq_eq_false_iff_ne.2 (Nat.ne_of_lt (hpos e he))
    have hwide' : (f.span.start == f.span.stop) = false :=
      beq_eq_false_iff_ne.2 (Nat.ne_of_lt (hpos f hf))
    have hapart : decide (f.span.start < e.span.stop) = false := decide_eq_false (Nat.not_lt.2 hle)
    simp only [Edit.conflicts, Edit.isInsertion, Span.isEmpty, Span.overlaps, hwide, hwide', hapart,
      Bool.and_false, Bool.false_eq_true, if_false]

/-- asked for in any order, such edits can be made, and the pass with a cursor gives the text -/
theorem apply_of_apart {source : String} {es sorted : List Edit} (hp : es.Perm sorted)
    (hfit : ∀ e ∈ sorted, e.Fits source.toList) (hpos : ∀ e ∈ sorted, e.span.start < e.span.stop)
    (hapart : sorted.Pairwise fun e f => e.span.stop ≤ f.span.start) :
    empty.addAll es = .ok ⟨sorted⟩ ∧
      (EditSet.mk sorted).apply source =
        .ok (String.ofList (spliceFrom source.toList 0 sorted)) := by
  have hordered := ordered_of_apart hpos hapart
  have hset := (ordered_empty.addAll_eq_ok_iff (fun e he => absurd he List.not_mem_nil)
    fun e he => (hfit e (hp.mem_iff.1 he)).1).2 ⟨hordered, hp.symm⟩
  refine ⟨hset, ?_⟩
  rw [apply, hordered.fault?_eq_none_iff.2 hfit]

theorem between_append {cs : List Char} {a b c : Nat} (hab : a ≤ b) (hbc : b ≤ c)
    (ha : isBoundary cs a = true) (hb : isBoundary cs b = true) (hc : isBoundary cs c = true) :
    between cs a c = between cs a b ++ between cs b c := by
  obtain ⟨first, hfirst⟩ := Option.isSome_iff_exists.1 (Text.isSome_slice_iff.2 ⟨hab, ha, hb⟩)
  obtain ⟨last, hlast⟩ := Option.isSome_iff_exists.1 (Text.isSome_slice_iff.2 ⟨hbc, hb, hc⟩)
  have hall : slice cs a c = some (first ++ last) := by
    obtain ⟨front, rest, rfl, rfl, rfl⟩ := Text.slice_eq_some_iff.1 hfirst
    obtain ⟨front', back, hcs, hfront, rfl⟩ := Text.slice_eq_some_iff.1 hlast
    rw [← List.append_assoc] at hcs
    have hlength := byteLength_append front first
    obtain ⟨extra, rfl, rfl⟩ := Text.exists_append_of_byteLength_le hcs (by omega)
    rw [byteLength_append] at hfront
    obtain rfl : extra = [] := Text.eq_nil_of_byteLength (by omega)
    refine Text.slice_eq_some_iff.2 ⟨front, back, ?_, rfl, ?_⟩
    · rw [List.nil_append, List.append_assoc]
    · rw [byteLength_append]
      omega
  rw [between, between, between, hfirst, hlast, hall]
  rfl

theorem spliceFrom_eq_append {cs : List Char} {a b : Nat} {es : List Edit} (hab : a ≤ b)
    (ha : isBoundary cs a = true) (hb : isBoundary cs b = true)
    (hes : ∀ e ∈ es, b ≤ e.span.start ∧ isBoundary cs e.span.start = true) :
    spliceFrom cs a es = between cs a b ++ spliceFrom cs b es := by
  cases es with
  | nil =>
    exact between_append hab (Text.le_byteLength_of_isBoundary hb) ha hb
      (Text.isBoundary_byteLength cs)
  | cons e es =>
    obtain ⟨hle, hstart⟩ := hes e List.mem_cons_self
    rw [spliceFrom, spliceFrom, between_append hab hle ha hb hstart]
    simp only [List.append_assoc]

/-! ## exchanging two texts -/

/-- the second text is the first one with what stands at a span and at a later one exchanged -/
def Exchanged (cs text : List Char) (s s' : Span) : Prop :=
  ∃ front first middle second back, cs = front ++ first ++ middle ++ second ++ back ∧
    s = ⟨byteLength front, byteLength (front ++ first)⟩ ∧
    s' = ⟨byteLength (front ++ first ++ middle), byteLength (front ++ first ++ middle ++ second)⟩ ∧
    text = front ++ second ++ middle ++ first ++ back

section
variable {s s' : Span} {cs text first second : List Char}

theorem exchanged_of_makes
    (h : Makes 0 cs [⟨s, String.ofList second⟩, ⟨s', String.ofList first⟩] text)
    (hfirst : slice cs s.start s.stop = some first)
    (hsecond : slice cs s'.start s'.stop = some second) : Exchanged cs text s s' := by
  obtain ⟨front, gone, back, made, rfl, hstart, hstop, hrest, rfl⟩ := h.exists_parts
  obtain ⟨middle, gone', back', made', rfl, hstart', hstop', hend, rfl⟩ := hrest.exists_parts
  obtain rfl := hend.eq_of_nil
  simp only [Nat.zero_add] at hstart hstop hstart' hstop'
  -- the texts are what the edits cut out
  have hsame : front ++ gone ++ (middle ++ gone' ++ made') =
      (front ++ gone ++ middle) ++ gone' ++ made' := by
    simp only [List.append_assoc]
  have hlength : byteLength (front ++ gone ++ middle) = s'.start := by
    rw [byteLength_append, byteLength_append]
    omega
  obtain rfl : gone = first := by
    rw [hstop, hstart, slice_append] at hfirst
    exact Option.some.inj hfirst
  obtain rfl : gone' = second := by
    rw [hstop', hsame, ← hlength, slice_append] at hsecond
    exact Option.some.inj hsecond
  refine ⟨front, gone, middle, gone', made', hsame, ?_, ?_, ?_⟩
  · rw [byteLength_append, ← hstart, ← hstop]
  · rw [byteLength_append _ gone', hlength, ← hstop']
  · simp only [String.toList_ofList, List.append_assoc]

/-- asked for in either order, such edits exchange the texts of the spans -/
theorem exists_exchanged {source : String} (hs : s.Cuts source.toList) (hs' : s'.Cuts source.toList)
    (hlt : s.start < s.stop) (hlt' : s'.start < s'.stop) (hle : s.stop ≤ s'.start)
    (hfirst : slice source.toList s.start s.stop = some first)
    (hsecond : slice source.toList s'.start s'.stop = some second) {es : List Edit}
    (hes : es.Perm [⟨s, String.ofList second⟩, ⟨s', String.ofList first⟩]) :
    ∃ set text, empty.addAll es = .ok set ∧ set.apply source = .ok text ∧
      Exchanged source.toList text.toList s s' := by
  have hordered : (EditSet.mk [⟨s, String.ofList second⟩, ⟨s', String.ofList first⟩]).Ordered :=
    ordered_of_apart (List.forall_mem_cons.2 ⟨hlt, List.forall_mem_singleton.2 hlt'⟩)
      (List.pairwise_pair.2 hle)
  have hfit : ∀ e ∈ [⟨s, String.ofList second⟩, ⟨s', String.ofList first⟩],
      Edit.Fits e source.toList :=
    List.forall_mem_cons.2 ⟨⟨hs.le, hs.start, hs.stop⟩,
      List.forall_mem_singleton.2 ⟨hs'.le, hs'.start, hs'.stop⟩⟩
  have hset := (ordered_empty.addAll_eq_ok_iff (fun e he => absurd he List.not_mem_nil)
    fun e he => (hfit e (hes.mem_iff.1 he)).1).2 ⟨hordered, hes.symm⟩
  obtain ⟨made, hmade⟩ := exists_makes [] hfit
    (fun e _ => Nat.zero_le e.span.start) (List.pairwise_pair.2 hle)
  refine ⟨_, _, hset, apply_of_makes (hordered.fault?_eq_none_iff.2 hfit) hmade, ?_⟩
  rw [String.toList_ofList]
  exact exchanged_of_makes hmade hfirst hsecond

end

/-- nodes whose texts stand apart and have something in them change places -/
theorem exists_swapped {t : SyntaxTree} {n m : Node t} (hn : n.span.Cuts t.source.toList)
    (hm : m.span.Cuts t.source.toList) (hlt : n.span.start < n.span.stop)
    (hlt' : m.span.start < m.span.stop) (hapart : n.span.Apart m.span) :
    ∃ c s text, Correction.empty.swap n m = some c ∧ empty.addAll c.edits = .ok s ∧
      s.apply t.source = .ok text ∧
      (Exchanged t.source.toList text.toList n.span m.span ∨
        Exchanged t.source.toList text.toList m.span n.span) := by
  obtain ⟨first, hfirst⟩ := Option.isSome_iff_exists.1
    (Text.isSome_slice_iff.2 ⟨hn.le, hn.start, hn.stop⟩)
  obtain ⟨second, hsecond⟩ := Option.isSome_iff_exists.1
    (Text.isSome_slice_iff.2 ⟨hm.le, hm.start, hm.stop⟩)
  have hswap : Correction.empty.swap n m =
      some ⟨[⟨n.span, String.ofList second⟩, ⟨m.span, String.ofList first⟩]⟩ := by
    simp only [Correction.swap, Node.source?, hfirst, hsecond]
    rfl
  rcases hapart with hle | hle
  · obtain ⟨s, text, hs, htext, hex⟩ :=
      exists_exchanged hn hm hlt hlt' hle hfirst hsecond (List.Perm.refl _)
    exact ⟨_, s, text, hswap, hs, htext, Or.inl hex⟩
  · obtain ⟨s, text, hs, htext, hex⟩ :=
      exists_exchanged hm hn hlt' hlt hle hsecond hfirst (List.Perm.swap _ _ _)
    exact ⟨_, s, text, hswap, hs, htext, Or.inr hex⟩

/-- **One pass over the text does what the edits do one at a time.**  Where the edits of a set can be
made, the result is that of single edits, made from the last to the first; and byte by byte it is
the text without the bytes that an edit covers, with the text of each edit in its place, an insertion
in front of what stands for a replaced span that starts there.  So an exchange of two nodes exchanges
their texts and leaves all else. -/
theorem apply_spliced :
    (∀ (rs : List Request) (source text : String), (ofRequests rs).apply source = .ok text →
      spliceEach? source.toList (ofRequests rs).edits = some text.toList ∧
      bytes text.toList = layout (ofRequests rs).edits 0 (bytes source.toList)) ∧
    ∀ (t : SyntaxTree) (n m : Node t), n.span.Cuts t.source.toList → m.span.Cuts t.source.toList →
      n.span.start < n.span.stop → m.span.start < m.span.stop → n.span.Apart m.span →
      ∃ c s text, Correction.empty.swap n m = some c ∧ empty.addAll c.edits = .ok s ∧
        s.apply t.source = .ok text ∧
        (Exchanged t.source.toList text.toList n.span m.span ∨
          Exchanged t.source.toList text.toList m.span n.span) := by
  refine ⟨fun rs source text ha => ?_, fun t n m hn hm hlt hlt' hapart =>
    exists_swapped hn hm hlt hlt' hapart⟩
  have hmakes := (ordered_ofRequests rs).makes_of_apply ha
  exact ⟨spliceEach?_of_makes [] hmakes, (layout_of_makes hmakes).symm⟩

/-- a replacement with an insertion at each of its ends, and the ends of the text deleted -/
def insertedAround : List Request :=
  [.add ⟨⟨2, 4⟩, "XY"⟩, .addAll [.insert 2 "!", .insert 4 "?"], .add (.remove ⟨0, 1⟩),
    .add (.remove ⟨5, 6⟩)]

/-- a call with two names for arguments, of which the first has a letter of two bytes -/
def calledWithTwo : SyntaxTree :=
  SyntaxTree.ofNode "p é, bc" .send ⟨0, 8⟩ Loc.none [.value .nil, .value (.sym "p"),
    .node .localVar ⟨2, 4⟩ Loc.none [.value (.sym "é")],
    .node .localVar ⟨6, 8⟩ Loc.none [.value (.sym "bc")]]

theorem insertedAround_spliced :
    (ofRequests insertedAround).apply "abcdef" = .ok "b!XY?e" ∧
    spliceEach? "abcdef".toList (ofRequests insertedAround).edits = some "b!XY?e".toList ∧
    ∃ n m : Node calledWithTwo, n.source? = some "é" ∧ m.source? = some "bc" ∧
      ∃ c s text, Correction.empty.swap m n = some c ∧ empty.addAll c.edits = .ok s ∧
        s.apply calledWithTwo.source = .ok text ∧
        (Exchanged calledWithTwo.source.toList text.toList m.span n.span ∨
          Exchanged calledWithTwo.source.toList text.toList n.span m.span) := by
  obtain ⟨hone, hswap⟩ := apply_spliced
  have hsome : ((ofRequests insertedAround).apply "abcdef").toOption = some "b!XY?e" := by
    decide +kernel
  have happly : (ofRequests insertedAround).apply "abcdef" = .ok "b!XY?e" := by
    cases ha : (ofRequests insertedAround).apply "abcdef" with
    | error err =>
      rw [ha] at hsome
      cases hsome
    | ok text =>
      rw [ha] at hsome
      cases hsome
      rfl
  refine ⟨happly, (hone _ _ _ happly).1, ⟨0, by decide +kernel⟩, ⟨1, by decide +kernel⟩,
    by decide +kernel, by decide +kernel, ?_⟩
  exact hswap calledWithTwo ⟨1, by decide +kernel⟩ ⟨0, by decide +kernel⟩ (by decide +kernel)
    (by decide +kernel) (by decide +kernel) (by decide +kernel) (Or.inr (by decide +kernel))

end EditSet

end RubyLint
