import SkinMarkup.Proofs.TagText.Tidy

/-!
# Where the attributes of a tag stand

The division of a tag gives every attribute its spans, which start where everything
before it ends (`WrittenPiece.mem_withSpans_iff`). The attributes of a tag can be told
apart by their names (`TagText.find?_attributes`), and each ends before the next one
begins (`WrittenPiece.pairwise_withSpans`).
-/

namespace SkinMarkup

/-- A quote is one byte wide. -/
theorem utf8Size_quote {q : Char} (hq : q = '"' ∨ q = '\'') : q.utf8Size = 1 := by
  rcases hq with rfl | rfl <;> rfl

namespace WrittenPiece

variable {offset : Nat} {pieces : List WrittenPiece} {p : WrittenPiece} {s : PieceSpans}

theorem map_fst_withSpans (offset : Nat) (pieces : List WrittenPiece) :
    (withSpans offset pieces).map Prod.fst = pieces := by
  induction pieces generalizing offset with
  | nil => rfl
  | cons p pieces ih => rw [withSpans, List.map_cons, ih]

theorem mem_withSpans_iff : (p, s) ∈ withSpans offset pieces ↔
    ∃ l r, pieces = l ++ p :: r ∧ s = p.spans (offset + width (l.flatMap source)) := by
  induction pieces generalizing offset with
  | nil =>
    constructor
    · rintro ⟨⟩
    · rintro ⟨l, r, h, -⟩
      exact absurd h.symm (List.append_ne_nil_of_right_ne_nil l (List.cons_ne_nil p r))
  | cons first pieces ih =>
    rw [withSpans, List.mem_cons, ih, Prod.mk.injEq]
    constructor
    · rintro (⟨rfl, rfl⟩ | ⟨l, r, rfl, rfl⟩)
      · exact ⟨[], pieces, rfl, rfl⟩
      · exact ⟨first :: l, r, rfl, by rw [List.flatMap_cons, width_append, Nat.add_assoc]⟩
    · rintro ⟨l, r, h, rfl⟩
      cases l with
      | nil =>
        obtain ⟨rfl, rfl⟩ := List.cons.inj h
        exact .inl ⟨rfl, rfl⟩
      | cons x l =>
        obtain ⟨rfl, rfl⟩ := List.cons.inj h
        exact .inr ⟨l, r, rfl, by rw [List.flatMap_cons, width_append, Nat.add_assoc]⟩

theorem mem_of_mem_withSpans {e : WrittenPiece × PieceSpans} (h : e ∈ withSpans offset pieces) :
    e.1 ∈ pieces := by
  rw [← map_fst_withSpans offset pieces]
  exact List.mem_map_of_mem h

/-- Nothing of an attribute stands before the place where it starts. -/
theorem le_start_of_mem_withSpans (h : (p, s) ∈ withSpans offset pieces) :
    offset ≤ s.name.start := by
  obtain ⟨l, r, -, rfl⟩ := mem_withSpans_iff.mp h
  rw [spans]
  dsimp only
  omega

/-- An attribute in quotes goes on behind its value. -/
theorem Lexed.stop_lt (h : p.Lexed) (offset : Nat) :
    (p.spans offset).value.stop < offset + width p.source := by
  obtain ⟨q, hquote, -⟩ := h.quoted
  have hpos := q.utf8Size_pos
  simp only [spans, source, extent, WrittenPiece.quoted, hquote, Option.toList_some, width_append,
    width_cons, width_nil]
  omega

/-- **The attributes of a tag stand one behind the other.** -/
theorem pairwise_withSpans (h : ∀ p ∈ pieces, p.Lexed) (offset : Nat) :
    (withSpans offset pieces).Pairwise fun e e' => e.2.value.stop < e'.2.name.start := by
  induction pieces generalizing offset with
  | nil => exact List.Pairwise.nil
  | cons p pieces ih =>
    obtain ⟨hp, hothers⟩ := List.forall_mem_cons.mp h
    refine List.pairwise_cons.mpr ⟨?_, ih hothers _⟩
    rintro ⟨p', s'⟩ hmem
    exact (hp.stop_lt offset).trans_le (le_start_of_mem_withSpans hmem)

end WrittenPiece

namespace TagText

variable {t : TagText}

theorem map_name_attributes (t : TagText) :
    t.attributes.map (fun e => e.1.name) = t.pieces.map (·.name) := by
  rw [attributes]
  conv => rhs; rw [← WrittenPiece.map_fst_withSpans (width t.head) t.pieces, List.map_map]
  rfl

/-- Among attributes with different names each is found by its own. -/
theorem find?_attributes (hnodup : (t.pieces.map (·.name)).Nodup) {e : WrittenPiece × PieceSpans}
    (he : e ∈ t.attributes) : (t.attributes.find? fun x => x.1.name = e.1.name) = some e := by
  rw [← map_name_attributes] at hnodup
  generalize t.attributes = found at hnodup he
  induction found with
  | nil => cases he
  | cons x found ih =>
    obtain ⟨hnew, hothers⟩ := List.nodup_cons.mp hnodup
    rcases List.mem_cons.mp he with rfl | he
    · exact List.find?_cons_of_pos (decide_eq_true rfl)
    · rw [List.find?_cons_of_neg, ih hothers he]
      rw [decide_eq_true_eq]
      intro hname
      exact hnew (List.mem_map.mpr ⟨e, he, hname.symm⟩)

end TagText

end SkinMarkup
