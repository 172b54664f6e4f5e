import SkinMarkup.Proofs.TagText.Values

/-!
# The extents of attributes

Every attribute that the division of a text finds stands there as its spans say, with its
name and its value inside its extent, and the extents follow each other
(`TagText.stands_of_mem_attributes`, `WrittenPiece.pairwise_extents`). Cutting extents out
of the text leaves everything else as it is: `TagText.cutOut_eq`. This is how attributes
are dropped from a tag (`TagText.without_eq_cutOut`).
-/

namespace SkinMarkup

/-- An attribute stands in a text where its spans say: the name and the value lie in this
order in the extent, the spans cut the text between characters, and the quotes around the
value are the first ones that can close it. -/
structure WrittenPiece.Stands (t : Text) (p : WrittenPiece) (s : PieceSpans) : Prop where
  lead : s.extent.start ≤ s.name.start
  named : s.name.start < s.name.stop
  assign : s.name.stop ≤ s.value.start
  value : s.value.start ≤ s.value.stop
  closed : s.value.stop ≤ s.extent.stop
  inside : s.extent.stop ≤ width t
  nameText : slice? s.name.start s.name.stop t = some p.name
  valueText : slice? s.value.start s.value.stop t = some p.value
  extentText : slice? s.extent.start s.extent.stop t = some p.extent
  quoted : ∀ q, p.quote = some q → (q = '"' ∨ q = '\'') ∧ q ∉ p.value

/-- What is left of a text that starts at `offset` without the characters in some spans. -/
def withoutSpans (spans : List Span) (offset : Nat) : Text → Text
  | [] => []
  | c :: cs =>
    let rest := withoutSpans spans (offset + c.utf8Size) cs
    if spans.any (·.contains offset) then rest else c :: rest

/-! ## Cutting spans out of a text -/

section

variable {spans spans' : List Span} {offset : Nat} {s : Span}

theorem withoutSpans_append (spans : List Span) (offset : Nat) (t u : Text) :
    withoutSpans spans offset (t ++ u) =
      withoutSpans spans offset t ++ withoutSpans spans (offset + width t) u := by
  induction t generalizing offset with
  | nil => rfl
  | cons c cs ih =>
    rw [List.cons_append, withoutSpans, withoutSpans, ih, width_cons, Nat.add_assoc]
    split <;> rfl

/-- Only the spans that reach into a text matter for what is left of it. -/
theorem withoutSpans_congr {t : Text} (h : ∀ i, offset ≤ i → i < offset + width t →
      spans.any (·.contains i) = spans'.any (·.contains i)) :
    withoutSpans spans offset t = withoutSpans spans' offset t := by
  induction t generalizing offset with
  | nil => rfl
  | cons c cs ih =>
    have hpos := c.utf8Size_pos
    have hfirst := h offset (Nat.le_refl offset) (by rw [width_cons]; omega)
    have hrest : withoutSpans spans (offset + c.utf8Size) cs =
        withoutSpans spans' (offset + c.utf8Size) cs :=
      ih fun i hle hlt => h i (by omega) (by rw [width_cons]; omega)
    rw [withoutSpans, withoutSpans, hfirst, hrest]

theorem withoutSpans_nil (offset : Nat) (t : Text) : withoutSpans [] offset t = t := by
  induction t generalizing offset with
  | nil => rfl
  | cons c cs ih =>
    rw [withoutSpans, ih]
    rfl

/-- A text that no span reaches into stays. -/
theorem withoutSpans_of_apart {t : Text}
    (h : ∀ s ∈ spans, s.stop ≤ offset ∨ offset + width t ≤ s.start) :
    withoutSpans spans offset t = t := by
  refine Eq.trans (withoutSpans_congr fun i hle hlt => ?_) (withoutSpans_nil offset t)
  rw [List.any_nil, List.any_eq_false]
  intro s hs hcontains
  have hin := Span.contains_iff.mp hcontains
  have hout := h s hs
  omega

/-- Nothing is left of a text in a span. -/
theorem withoutSpans_of_covered {t : Text} (hs : s ∈ spans) (hstart : s.start ≤ offset)
    (hstop : offset + width t ≤ s.stop) : withoutSpans spans offset t = [] := by
  induction t generalizing offset with
  | nil => rfl
  | cons c cs ih =>
    have hpos := c.utf8Size_pos
    rw [width_cons] at hstop
    have hany : spans.any (·.contains offset) = true :=
      List.any_eq_true.mpr ⟨s, hs, Span.contains_iff.mpr ⟨hstart, by omega⟩⟩
    rw [withoutSpans, hany, if_pos rfl]
    exact ih (by omega) (by omega)

end

/-! ## Where extents stand -/

namespace WrittenPiece

variable {offset : Nat} {pieces : List WrittenPiece} {p : WrittenPiece} {s : PieceSpans}
  {e : WrittenPiece × PieceSpans}

theorem extent_start (offset : Nat) (p : WrittenPiece) :
    (p.spans offset).extent.start = offset + width p.skipped := rfl

theorem extent_stop (offset : Nat) (p : WrittenPiece) :
    (p.spans offset).extent.stop = offset + width p.source := by
  rw [source, width_append, ← Nat.add_assoc]
  rfl

/-- The extents of attributes lie in what is written of them. -/
theorem extent_of_mem_withSpans (h : e ∈ withSpans offset pieces) :
    offset ≤ e.2.extent.start ∧ e.2.extent.stop ≤ offset + width (pieces.flatMap source) := by
  obtain ⟨l, r, rfl, hs⟩ := mem_withSpans_iff.mp h
  rw [hs, extent_start, extent_stop]
  simp only [List.flatMap_append, List.flatMap_cons, width_append]
  omega

/-- **No extent begins before the one in front of it ends.** -/
theorem pairwise_extents (offset : Nat) (pieces : List WrittenPiece) :
    (withSpans offset pieces).Pairwise fun e e' => e.2.extent.stop ≤ e'.2.extent.start := by
  induction pieces generalizing offset with
  | nil => exact List.Pairwise.nil
  | cons p pieces ih =>
    refine List.pairwise_cons.mpr ⟨?_, ih _⟩
    intro e he
    rw [extent_stop]
    exact (extent_of_mem_withSpans he).1

/-- The extent of an attribute is cut out of what is written of it. -/
theorem withoutSpans_source {spans : List Span} (h : (p.spans offset).extent ∈ spans)
    (hbehind : ∀ s ∈ spans, offset + width p.skipped ≤ s.start) :
    withoutSpans spans offset p.source = p.skipped := by
  have hextent : withoutSpans spans (offset + width p.skipped) p.extent = [] :=
    withoutSpans_of_covered h (Nat.le_refl _) (Nat.le_refl _)
  rw [source, withoutSpans_append, withoutSpans_of_apart fun s hs => Or.inr (hbehind s hs), hextent,
    List.append_nil]

/-- Cutting extents out of what is written of attributes leaves the other attributes and
what was passed over. -/
theorem withoutSpans_flatMap_source (drop : WrittenPiece × PieceSpans → Bool) (offset : Nat)
    (pieces : List WrittenPiece) :
    withoutSpans (((withSpans offset pieces).filter drop).map (·.2.extent)) offset
        (pieces.flatMap source) =
      (withSpans offset pieces).flatMap fun e => if drop e then e.1.skipped else e.1.source := by
  induction pieces generalizing offset with
  | nil => rfl
  | cons p pieces ih =>
    have hothers := ih (offset + width p.source)
    have hbehind : ∀ s ∈ ((withSpans (offset + width p.source) pieces).filter drop).map (·.2.extent),
        offset + width p.source ≤ s.start := by
      intro s hs
      obtain ⟨e, he, rfl⟩ := List.mem_map.mp hs
      exact (extent_of_mem_withSpans (List.mem_filter.mp he).1).1
    rw [withSpans, List.flatMap_cons, List.flatMap_cons, withoutSpans_append, ← hothers]
    cases hdrop : drop (p, p.spans offset) with
    | false =>
      rw [List.filter_cons_of_neg (by simp [hdrop]),
        withoutSpans_of_apart fun s hs => Or.inr (hbehind s hs)]
      rfl
    | true =>
      rw [List.filter_cons_of_pos hdrop, List.map_cons]
      congr 1
      · refine withoutSpans_source List.mem_cons_self ?_
        intro s hs
        rcases List.mem_cons.mp hs with rfl | hs
        · exact Nat.le_refl _
        · have hle := hbehind s hs
          rw [source, width_append] at hle
          omega
      · -- The extent ends before the other attributes begin.
        refine withoutSpans_congr fun i hle hlt => ?_
        have hout : (p.spans offset).extent.contains i = false := by
          rw [← Bool.not_eq_true, Span.contains_iff, extent_stop]
          omega
        rw [List.any_cons, hout, Bool.false_or]

end WrittenPiece

/-! ## The attributes of a text -/

namespace TagText

variable {t skipped : Text} {p : WrittenPiece} {s : PieceSpans}

/-- Every attribute comes from one step of the reading. -/
theorem exists_step_of_mem_ofText (hp : p ∈ (ofText t).pieces) :
    ∃ u rest piece, step u = .piece piece rest ∧ p = { piece with skipped := p.skipped } := by
  unfold ofText at hp
  split at hp
  · exact exists_step_of_mem_readPieces hp
  · cases hp

theorem name_ne_nil_of_mem (hp : p ∈ (ofText t).pieces) : p.name ≠ [] := by
  obtain ⟨u, rest, piece, hstep, hpiece⟩ := exists_step_of_mem_ofText hp
  rw [hpiece]
  exact (step_piece hstep).2.2

/-- A quoted value ends at the first copy of its quote. -/
theorem quoted_of_mem {q : Char} (hp : p ∈ (ofText t).pieces) (hquote : p.quote = some q) :
    (q = '"' ∨ q = '\'') ∧ q ∉ p.value := by
  obtain ⟨u, rest, piece, hstep, hpiece⟩ := exists_step_of_mem_ofText hp
  rw [hpiece] at hquote ⊢
  have hlexed := lexed_of_step hstep (Option.ne_none_iff_exists'.mpr ⟨q, hquote⟩)
  obtain ⟨q', hquote', hq', hvalue⟩ := hlexed.quoted
  cases hquote'.symm.trans hquote
  exact ⟨hq', hvalue⟩

/-- **The attributes of a text stand where their spans say.** -/
theorem stands_of_mem_attributes (h : (p, s) ∈ (ofText t).attributes) : p.Stands t s := by
  have hp := WrittenPiece.mem_of_mem_withSpans h
  obtain ⟨l, r, hpieces, rfl⟩ := WrittenPiece.mem_withSpans_iff.mp h
  let front := (ofText t).head ++ l.flatMap WrittenPiece.source ++ p.skipped
  let rest := r.flatMap WrittenPiece.source ++ (ofText t).tail
  have htext : t = front ++ (p.lead ++ (p.name ++ (p.assign ++ (p.quote.toList ++ (p.value ++
      (p.quote.toList ++ rest)))))) := by
    conv => lhs; rw [← source_ofText t, source, hpieces]
    simp [front, rest, WrittenPiece.source, WrittenPiece.extent, WrittenPiece.quoted]
  have hfront : width front =
      width (ofText t).head + width (l.flatMap WrittenPiece.source) + width p.skipped := by
    simp only [front, width_append]
  have hnamed : 0 < width p.name := by
    obtain ⟨c, cs, hname⟩ := List.exists_cons_of_ne_nil (name_ne_nil_of_mem hp)
    have hpos := c.utf8Size_pos
    rw [hname, width_cons]
    omega
  have hwidth := congrArg width htext
  simp only [width_append] at hwidth
  constructor
  case nameText =>
    refine slice?_of_split (front ++ p.lead)
      (p.assign ++ (p.quote.toList ++ (p.value ++ (p.quote.toList ++ rest)))) ?_ ?_ rfl
    · rw [htext]
      simp
    · rw [width_append, hfront]
      rfl
  case valueText =>
    refine slice?_of_split (front ++ p.lead ++ p.name ++ p.assign ++ p.quote.toList)
      (p.quote.toList ++ rest) ?_ ?_ rfl
    · rw [htext]
      simp
    · simp only [width_append, hfront, WrittenPiece.spans]
  case extentText =>
    refine slice?_of_split front rest ?_ hfront.symm rfl
    rw [htext]
    simp [WrittenPiece.extent, WrittenPiece.quoted]
  case quoted => exact fun q hquote => quoted_of_mem hp hquote
  all_goals
    simp only [WrittenPiece.spans, WrittenPiece.extent, WrittenPiece.quoted, width_append]
    omega

/-! ## Dropping attributes -/

/-- What is left of a text when the extents of some of its attributes are cut out. -/
def cutOut (drop : WrittenPiece × PieceSpans → Bool) (t : Text) : Text :=
  withoutSpans (((ofText t).attributes.filter drop).map (·.2.extent)) 0 t

/-- What stands around the attributes stays, and so does what was passed over in front of
a dropped one. -/
theorem cutOut_eq (drop : WrittenPiece × PieceSpans → Bool) (t : Text) :
    cutOut drop t = (ofText t).head ++
      ((ofText t).attributes.flatMap fun e => if drop e then e.1.skipped else e.1.source) ++
      (ofText t).tail := by
  let spans := ((ofText t).attributes.filter drop).map (·.2.extent)
  have hspan : ∀ s ∈ spans, width (ofText t).head ≤ s.start ∧
      s.stop ≤ width (ofText t).head + width ((ofText t).pieces.flatMap WrittenPiece.source) := by
    intro s hs
    obtain ⟨e, he, rfl⟩ := List.mem_map.mp hs
    exact WrittenPiece.extent_of_mem_withSpans (List.mem_filter.mp he).1
  have hhead : withoutSpans spans 0 (ofText t).head = (ofText t).head := by
    refine withoutSpans_of_apart fun s hs => Or.inr ?_
    rw [Nat.zero_add]
    exact (hspan s hs).1
  have htail : withoutSpans spans (width (ofText t).head +
      width ((ofText t).pieces.flatMap WrittenPiece.source)) (ofText t).tail = (ofText t).tail :=
    withoutSpans_of_apart fun s hs => Or.inl (hspan s hs).2
  have hpieces := WrittenPiece.withoutSpans_flatMap_source drop (width (ofText t).head)
    (ofText t).pieces
  calc cutOut drop t
      = withoutSpans spans 0 (ofText t).source := by rw [source_ofText, cutOut]
    _ = withoutSpans spans 0 (ofText t).head ++
          (withoutSpans spans (width (ofText t).head)
            ((ofText t).pieces.flatMap WrittenPiece.source) ++
          withoutSpans spans (width (ofText t).head +
            width ((ofText t).pieces.flatMap WrittenPiece.source)) (ofText t).tail) := by
        rw [source, List.append_assoc, withoutSpans_append, withoutSpans_append, Nat.zero_add]
    _ = _ := by rw [hhead, htail, ← List.append_assoc]; exact congrArg (_ ++ · ++ _) hpieces

/-- **Attributes are dropped with their extents and nothing else.** -/
theorem without_eq_cutOut (p : WrittenPiece → Bool) (t : Text) :
    (ofText t).without p = cutOut (fun e => p e.1) t := by
  rw [cutOut_eq, without, attributes]
  congr 2
  conv => lhs; rw [← WrittenPiece.map_fst_withSpans (width (ofText t).head) (ofText t).pieces]
  rw [List.flatMap_map]

end TagText

end SkinMarkup
