import SkinMarkup.Proofs.TagText.Extents

/-!
# Cutting attributes out of a tag

Where every attribute is quoted and has a blank in front, any of them can be cut out with
their extents: read again, the text has the other attributes, written as they were
(`TagText.attributes_cutOut`). A closing quote ends what is read of an attribute, so the
rest of the tag is read as before behind any attribute that is left. With no attribute
left the rest follows the name, and what begins it becomes part of the name. This hides
nothing but a question mark: the reading stops where a name would begin with one, but
passes over it in a name, and may find attributes behind it (`TagText.HidesAttributes`).
-/

namespace SkinMarkup

namespace TagText

variable {t u rest lead name assign skipped pad : Text} {p : WrittenPiece}

/-- Every attribute is quoted, and its extent starts with a blank. -/
def Detachable (t : TagText) : Prop :=
  ∀ p ∈ t.pieces, p.quote ≠ none ∧ p.extent.head?.any isSpace = true

instance (t : TagText) : Decidable t.Detachable :=
  inferInstanceAs (Decidable (∀ p ∈ t.pieces, p.quote ≠ none ∧ p.extent.head?.any isSpace = true))

/-- The rest of a tag starts with a question mark, and read as a tag of its own it has
attributes. -/
def HidesAttributes (t : TagText) : Prop :=
  t.tail.head? = some '?' ∧ (ofText ('<' :: t.tail)).pieces ≠ []

instance (t : TagText) : Decidable t.HidesAttributes :=
  inferInstanceAs (Decidable (_ ∧ _))

/-! ## Blanks in front -/

/-- The same step with blanks in front of it. -/
def Step.behind (pad : Text) : Step → Step
  | .stop => .stop
  | .valueless read rest => .valueless (pad ++ read) rest
  | .piece p rest => .piece { p with lead := pad ++ p.lead } rest

theorem stepValue_behind (pad lead name assign t : Text) :
    stepValue (pad ++ lead) name assign t = (stepValue lead name assign t).behind pad := by
  unfold stepValue
  cases t with
  | nil => rfl
  | cons c cs =>
    dsimp only
    split
    · split
      · rfl
      · rfl
    · rfl

theorem stepName_behind (pad lead name t : Text) :
    stepName (pad ++ lead) name t = (stepName lead name t).behind pad := by
  unfold stepName
  dsimp only
  split
  · simp [Step.behind]
  · split
    · exact stepValue_behind pad lead name _ _
    · simp [Step.behind]

/-- Blanks in front of an attribute or a name belong to it. -/
theorem step_behind (hpad : Spaces pad) (t : Text) : step (pad ++ t) = (step t).behind pad := by
  rw [step, step, List.takeWhile_append_of_pos hpad, List.dropWhile_append_of_pos hpad]
  split
  · rfl
  · exact stepName_behind pad _ _ _

/-! ## Texts without attributes -/

/-- A part of a tag from which no attribute is read: the reading stops, perhaps behind
names without a value. -/
inductive Exhausted : Text → Prop
  | stop {t : Text} (h : step t = .stop) : Exhausted t
  | valueless {t read rest : Text} (h : step t = .valueless read rest) (hrest : Exhausted rest) :
    Exhausted t

theorem Exhausted.readPieces_eq (h : Exhausted t) (skipped : Text) :
    readPieces skipped t = ([], skipped ++ t) := by
  induction h generalizing skipped with
  | stop h => exact readPieces_of_stop h
  | valueless h _ ih =>
    rw [readPieces_of_valueless h, ih, List.append_assoc, (step_valueless h).1]

theorem exhausted_of_readPieces (h : (readPieces skipped t).1 = []) : Exhausted t := by
  fun_induction readPieces skipped t with
  | case1 skipped t hstop => exact .stop hstop
  | case2 skipped t read rest hread _ ih => exact .valueless hread (ih h)
  | case3 => cases h

theorem exhausted_tail_of_ne_nil (h : (readPieces skipped t).1 ≠ []) :
    Exhausted (readPieces skipped t).2 := by
  fun_induction readPieces skipped t with
  | case1 => exact absurd rfl h
  | case2 skipped t read rest hread _ ih => exact ih h
  | case3 skipped t piece rest hread _ pieces tail heq ih =>
    rw [heq] at ih
    cases pieces with
    | nil =>
      have hrest : Exhausted rest := exhausted_of_readPieces (congrArg Prod.fst heq)
      cases (hrest.readPieces_eq []).symm.trans heq
      exact hrest
    | cons p pieces => exact ih (List.cons_ne_nil p pieces)

/-- Nothing is read from what the reading leaves. -/
theorem exhausted_tail (t : Text) : Exhausted (readPieces [] t).2 := by
  by_cases h : (readPieces [] t).1 = []
  · have ht := exhausted_of_readPieces h
    rw [ht.readPieces_eq]
    exact ht
  · exact exhausted_tail_of_ne_nil h

theorem Exhausted.behind (h : Exhausted t) (hpad : Spaces pad) : Exhausted (pad ++ t) := by
  have hstep := step_behind hpad t
  cases h with
  | stop h =>
    rw [h] at hstep
    exact .stop hstep
  | valueless h hrest =>
    rw [h] at hstep
    exact .valueless hstep hrest

theorem Exhausted.of_valueless {read : Text} (h : Exhausted t) (hstep : step t = .valueless read rest) :
    Exhausted rest := by
  cases h with
  | stop h => cases h.symm.trans hstep
  | valueless h hrest =>
    cases h.symm.trans hstep
    exact hrest

/-- A text that starts with a name has no blanks in front of it. -/
theorem step_eq_stepName (hname : t.takeWhile (!endsName ·) ≠ []) (hquestion : t.head? ≠ some '?') :
    step t = stepName [] (t.takeWhile (!endsName ·)) (t.dropWhile (!endsName ·)) := by
  obtain ⟨c, cs, hcons⟩ := List.exists_cons_of_ne_nil hname
  have hin : c ∈ t.takeWhile (!endsName ·) := hcons ▸ List.mem_cons_self
  have hspace : isSpace c = false := by
    cases hc : isSpace c with
    | false => rfl
    | true =>
      have hends := List.mem_takeWhile_imp hin
      rw [endsName_of_isSpace hc] at hends
      cases hends
  have hfirst : t.takeWhile isSpace = [] ∧ t.dropWhile isSpace = t := by
    rw [← List.takeWhile_append_dropWhile (p := (!endsName ·)) (l := t), hcons, List.cons_append]
    exact ⟨List.takeWhile_cons_of_neg (by simp [hspace]),
      List.dropWhile_cons_of_neg (by simp [hspace])⟩
  rw [step, hfirst.1, hfirst.2]
  exact if_neg (not_or.mpr ⟨hname, hquestion⟩)

/-- Nothing is read from what follows a name either. -/
theorem Exhausted.of_stepName (h : Exhausted t) (hstep : step t = stepName lead name u) :
    Exhausted u := by
  rw [← List.takeWhile_append_dropWhile (p := isSpace) (l := u)]
  refine Exhausted.behind ?_ (List.all_eq_true.mp List.all_takeWhile)
  rw [stepName] at hstep
  cases hrest : u.dropWhile isSpace with
  | nil => exact .stop (step_eq_stop (by rintro c ⟨⟩))
  | cons c cs =>
    rw [hrest] at hstep
    dsimp only at hstep
    by_cases hc : c = '='
    · subst hc
      refine .stop (step_eq_stop ?_)
      rintro c ⟨⟩
      exact ⟨rfl, rfl⟩
    · rw [if_neg hc] at hstep
      exact h.of_valueless hstep

/-- Behind the name that begins it nothing is read either, unless the reading did not go
beyond a question mark. -/
theorem Exhausted.dropWhile_name (h : Exhausted t) (hquestion : t.head? ≠ some '?') :
    Exhausted (t.dropWhile (!endsName ·)) := by
  by_cases hname : t.takeWhile (!endsName ·) = []
  · have hsplit := List.takeWhile_append_dropWhile (p := (!endsName ·)) (l := t)
    rw [hname, List.nil_append] at hsplit
    rw [hsplit]
    exact h
  · exact h.of_stepName (step_eq_stepName hname hquestion)

/-! ## Detachable attributes -/

theorem head?_of_stepName_valueless {read : Text} (h : stepName lead name t = .valueless read rest) :
    ∀ c ∈ rest.head?, isSpace c = false := by
  unfold stepName at h
  dsimp only at h
  have hfirst := List.head?_dropWhile_not isSpace t
  split at h
  · cases h
    rintro c ⟨⟩
  · next c cs hdrop =>
    split at h
    · exact absurd h stepValue_ne_valueless
    · cases h
      rw [hdrop] at hfirst
      rintro c ⟨⟩
      exact hfirst

/-- The blanks behind a name without a value are passed over with it. -/
theorem head?_of_step_valueless {read : Text} (h : step t = .valueless read rest) :
    ∀ c ∈ rest.head?, isSpace c = false := by
  unfold step at h
  dsimp only at h
  split at h
  · cases h
  · exact head?_of_stepName_valueless h

theorem lead_of_step (h : step t = .piece p rest) (hquote : p.quote ≠ none) :
    p.lead = t.takeWhile isSpace := by
  unfold step at h
  dsimp only at h
  split at h
  · cases h
  · exact (quoted_of_stepName h hquote).1

/-- Only at the start of the reading an attribute with blanks has something passed over in
front of it. -/
theorem skipped_eq_nil_of_lead (hp : p ∈ (readPieces skipped t).1) (hquote : p.quote ≠ none)
    (hlead : p.lead ≠ []) (hskipped : skipped = [] ∨ ∀ c ∈ t.head?, isSpace c = false) :
    p.skipped = [] := by
  fun_induction readPieces skipped t with
  | case1 => cases hp
  | case2 skipped t read rest hread _ ih => exact ih hp (Or.inr (head?_of_step_valueless hread))
  | case3 skipped t piece rest hread _ pieces tail heq ih =>
    rw [heq] at ih
    rcases List.mem_cons.mp hp with rfl | hp
    · rcases hskipped with hnil | hfirst
      · exact hnil
      · have hblanks := lead_of_step hread hquote
        cases t with
        | nil => exact absurd hblanks hlead
        | cons c cs =>
          rw [List.takeWhile_cons_of_neg (by simp [hfirst c rfl])] at hblanks
          exact absurd hblanks hlead
    · exact ih hp (Or.inl rfl)

/-- The attributes of a detachable tag are lexed, with blanks in front of each. -/
theorem Detachable.lexed (h : (ofText t).Detachable) (hp : p ∈ (ofText t).pieces) :
    p.Lexed ∧ p.lead ≠ [] := by
  obtain ⟨hquote, hblank⟩ := h p hp
  have hlead : p.lead ≠ [] := by
    obtain ⟨u, rest, piece, hstep, hpiece⟩ := exists_step_of_mem_ofText hp
    have hlexed := lexed_of_step hstep (by rw [hpiece] at hquote; exact hquote)
    obtain ⟨c, cs, hname⟩ := List.exists_cons_of_ne_nil hlexed.named
    intro hnil
    have hfirst : p.extent.head? = some c := by
      rw [WrittenPiece.extent, hnil, hpiece, hname]
      rfl
    rw [hfirst] at hblank
    cases (endsName_of_isSpace hblank).symm.trans (hlexed.name c (hname ▸ List.mem_cons_self))
  refine ⟨?_, hlead⟩
  unfold ofText at hp
  split at hp
  · exact lexed_of_mem_readPieces hp (skipped_eq_nil_of_lead hp hquote hlead (Or.inl rfl)) hquote
  · cases hp

/-! ## Reading again -/

/-- The attributes of a text that are not dropped. -/
def kept (drop : WrittenPiece × PieceSpans → Bool) (t : Text) : List WrittenPiece :=
  ((ofText t).attributes.filter (!drop ·)).map Prod.fst

theorem mem_of_mem_kept {drop : WrittenPiece × PieceSpans → Bool} (hp : p ∈ kept drop t) :
    p ∈ (ofText t).pieces := by
  obtain ⟨e, he, rfl⟩ := List.mem_map.mp hp
  exact WrittenPiece.mem_of_mem_withSpans (List.mem_filter.mp he).1

/-- Cutting attributes out of a detachable tag leaves the others, one behind the other,
between the name and the rest. -/
theorem Detachable.cutOut_eq (h : (ofText t).Detachable) (drop : WrittenPiece × PieceSpans → Bool) :
    cutOut drop t =
      (ofText t).head ++ (kept drop t).flatMap WrittenPiece.source ++ (ofText t).tail := by
  have hskipped : ∀ e ∈ (ofText t).attributes, e.1.skipped = [] :=
    fun e he => (h.lexed (WrittenPiece.mem_of_mem_withSpans he)).1.skipped
  rw [TagText.cutOut_eq, kept, StartTag.flatMap_kept Prod.fst drop hskipped]

/-- What is read of a tag is read behind its name. -/
theorem pieces_ofText (hname : Unended name) (t : Text) :
    (ofText ('<' :: (name ++ t))).pieces = (readPieces [] (t.dropWhile (!endsName ·))).1 := by
  have hin : ∀ c ∈ name, (!endsName c) = true := by
    intro c hc
    rw [hname c hc]
    rfl
  rw [ofText, List.dropWhile_append_of_pos hin]

/-- **Read again, the text has the attributes that are kept,** if there are any. Otherwise
it has the attributes of the rest. -/
theorem Detachable.pieces_cutOut {cs : Text} (h : (ofText ('<' :: cs)).Detachable)
    (drop : WrittenPiece × PieceSpans → Bool) :
    (ofText (cutOut drop ('<' :: cs))).pieces =
      if kept drop ('<' :: cs) = [] then (ofText ('<' :: (ofText ('<' :: cs)).tail)).pieces
      else kept drop ('<' :: cs) := by
  have hname : Unended (cs.takeWhile (!endsName ·)) := by
    intro c hc
    simpa using List.mem_takeWhile_imp hc
  have hread : (ofText (cutOut drop ('<' :: cs))).pieces =
      (readPieces [] (((kept drop ('<' :: cs)).flatMap WrittenPiece.source ++
        (ofText ('<' :: cs)).tail).dropWhile (!endsName ·))).1 := by
    rw [h.cutOut_eq, List.append_assoc]
    exact pieces_ofText hname _
  rw [hread]
  have hlexed : ∀ p ∈ kept drop ('<' :: cs), p.Lexed ∧ p.lead ≠ [] :=
    fun p hp => h.lexed (mem_of_mem_kept hp)
  cases hkept : kept drop ('<' :: cs) with
  | nil =>
    have hempty : Unended [] := by rintro c ⟨⟩
    exact (pieces_ofText hempty _).symm
  | cons p ps =>
    rw [hkept] at hlexed
    obtain ⟨hfirst, hlead⟩ := hlexed p List.mem_cons_self
    obtain ⟨b, bs, hblank⟩ := List.exists_cons_of_ne_nil hlead
    -- The blank in front of the first attribute ends the name.
    have hends : (!endsName b) = false := by
      rw [endsName_of_isSpace (hfirst.lead b (hblank ▸ List.mem_cons_self))]
      rfl
    have hdrop : (((p :: ps).flatMap WrittenPiece.source ++
        (ofText ('<' :: cs)).tail).dropWhile (!endsName ·)) =
        (p :: ps).flatMap WrittenPiece.source ++ (ofText ('<' :: cs)).tail := by
      rw [List.flatMap_cons, WrittenPiece.source, hfirst.skipped, WrittenPiece.extent, hblank]
      exact List.dropWhile_cons_of_neg (by simp [hends])
    have htail : (readPieces [] (ofText ('<' :: cs)).tail).1 = [] :=
      congrArg Prod.fst ((exhausted_tail _).readPieces_eq [])
    rw [hdrop, readPieces_append (fun p hp => (hlexed p hp).1), htail, List.append_nil, if_neg]
    exact List.cons_ne_nil p ps

/-- The rest of a tag has no attributes of its own, unless it hides them. -/
theorem pieces_tail (cs : Text) (h : ¬ (ofText ('<' :: cs)).HidesAttributes) :
    (ofText ('<' :: (ofText ('<' :: cs)).tail)).pieces = [] := by
  by_cases hquestion : (ofText ('<' :: cs)).tail.head? = some '?'
  · exact not_not.mp fun hne => h ⟨hquestion, hne⟩
  · have hrest := (exhausted_tail (cs.dropWhile (!endsName ·))).dropWhile_name hquestion
    exact congrArg Prod.fst (hrest.readPieces_eq [])

theorem cutOut_of_nil {drop : WrittenPiece × PieceSpans → Bool} (h : (ofText t).attributes = []) :
    cutOut drop t = t := by
  rw [cutOut, h]
  exact withoutSpans_nil 0 t

/-- **Attributes can be cut out with their extents.** The attributes of a text stand where
their spans say, without overlap, and dropping some of them cuts their extents out and
nothing else. Where every attribute is quoted and has a blank in front, any choice of them
can be cut out (no two have the same spans, so a test tells them all apart): read again,
the text has the other attributes, in their order and written as they were. The only
exception is a text all of whose attributes are cut out and whose rest hides attributes
behind a question mark. -/
theorem attributes_cutOut (t : Text) :
    (∀ e ∈ (ofText t).attributes, e.1.Stands t e.2) ∧
    (ofText t).attributes.Pairwise (fun e e' => e.2.extent.stop ≤ e'.2.extent.start) ∧
    (∀ p, (ofText t).without p = cutOut (fun e => p e.1) t) ∧
    ((ofText t).Detachable → ∀ drop,
      ((ofText (cutOut drop t)).pieces = kept drop t ↔
        ¬ ((ofText t).attributes ≠ [] ∧ kept drop t = [] ∧ (ofText t).HidesAttributes))) := by
  refine ⟨fun e he => stands_of_mem_attributes he, WrittenPiece.pairwise_extents _ _,
    fun p => without_eq_cutOut p t, ?_⟩
  intro hdetach drop
  by_cases hnone : (ofText t).attributes = []
  · have hpieces : (ofText t).pieces = [] := by
      rw [← WrittenPiece.map_fst_withSpans (width (ofText t).head) (ofText t).pieces]
      exact congrArg (List.map Prod.fst) hnone
    rw [cutOut_of_nil hnone, hpieces, kept, hnone]
    simp
  · obtain ⟨cs, rfl⟩ : ∃ cs, t = '<' :: cs := by
      refine List.head?_eq_some_iff.mp (not_not.mp fun hhead => hnone ?_)
      rw [ofText_of_head? hhead]
      rfl
    rw [hdetach.pieces_cutOut]
    by_cases hkept : kept drop ('<' :: cs) = []
    · rw [if_pos hkept, hkept]
      constructor
      · rintro hpieces ⟨-, -, -, hne⟩
        exact hne hpieces
      · intro hsafe
        exact pieces_tail cs fun hhides => hsafe ⟨hnone, rfl, hhides⟩
    · rw [if_neg hkept]
      exact iff_of_true rfl fun hall => hkept hall.2.1

theorem attributes_cutOut_of_suffix :
    let tag := "<e:Rect\tx.up = \"1\"\n é.up='\"'  id=\"?\" hidden x=\"2/>".toList
    (ofText tag).Detachable ∧
      cutOut (fun e => e.1.name = "x.up".toList) tag =
        "<e:Rect\n é.up='\"'  id=\"?\" hidden x=\"2/>".toList ∧
      ((ofText (cutOut (fun e => e.1.name = "x.up".toList) tag)).pieces.map (·.name) =
        ["é.up".toList, "id".toList]) ∧
      (ofText (cutOut (fun _ => true) tag)).pieces = [] := by
  intro tag
  have hdetach : (ofText tag).Detachable := by decide +kernel
  have hplain : ¬ (ofText tag).HidesAttributes := by decide +kernel
  have hcut := fun drop => ((attributes_cutOut tag).2.2.2 hdetach drop).mpr fun h => hplain h.2.2
  have hx := hcut fun e => e.1.name = "x.up".toList
  have hall := hcut fun _ => true
  refine ⟨hdetach, by decide +kernel, ?_, ?_⟩
  · rw [hx]
    decide +kernel
  · rw [hall]
    decide +kernel

/-- Cutting the only attribute out of a tag uncovers another one behind a question mark. -/
theorem not_attributes_of_question :
    let tag := "<a x=\"1\"?foo y=\"2\">".toList
    (ofText tag).Detachable ∧ (ofText tag).pieces.map (·.name) = ["x".toList] ∧
      cutOut (fun _ => true) tag = "<a?foo y=\"2\">".toList ∧
      (ofText (cutOut (fun _ => true) tag)).pieces.map (·.name) = ["y".toList] ∧
      ¬ (ofText (cutOut (fun _ => true) tag)).pieces = kept (fun _ => true) tag := by
  decide +kernel

end TagText

end SkinMarkup
