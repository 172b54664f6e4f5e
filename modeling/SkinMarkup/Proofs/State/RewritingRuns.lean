import Mathlib.Data.Finset.Lattice.Lemmas
import SkinMarkup.Proofs.State.Rewriting

/-!
# Runs of rewriters

The names of attributes that apply to one state are rewritten at the same holes of
a tag, whatever the names are (`exists_attributes_on`). With that, all that
renaming a state does to a start tag is a run of rewriters (`renameInTag_eq_run`).

**A run that puts the old name back undoes a run that put a new name**
(`exists_run`): the first has changed some holes, and each rewriter of the second
changes back those that it changed in the first.
-/

namespace SkinMarkup

open Template TemplateSymbol

namespace Rewriter

variable {r : Rewriter} {s : Template}

/-! ## The names of attributes -/

/-- Rewrites the names of the attributes that apply to one state. -/
def attributes : Rewriter where
  apply := renameAttributes
  Reacts old tag := ∃ p ∈ (TagText.ofText tag).pieces, (stemFor? old p.name).isSome = true
  Exact _ _ := True

/-- The hole behind the last dot of a name, if there is something before the
dot. -/
def dotHole (b : Template) : List Nat :=
  match b.reverse with
  | hole i :: char '.' :: _ :: _ => [i]
  | _ => []

theorem mem_dotHole {b : Template} {i : Nat} :
    i ∈ dotHole b ↔ ∃ u, u ≠ [] ∧ b = u ++ [char '.', hole i] := by
  constructor
  · intro h
    unfold dotHole at h
    split at h
    · next j x u hb =>
      obtain rfl := List.mem_singleton.mp h
      refine ⟨(x :: u).reverse, by simp, ?_⟩
      rw [← List.reverse_reverse b, hb]
      simp
    · cases h
  · rintro ⟨u, hu, rfl⟩
    obtain ⟨x, xs, hx⟩ := List.exists_cons_of_ne_nil (mt List.reverse_eq_nil_iff.mp hu)
    simp [dotHole, hx]

/-- **The name of an attribute is for a state exactly when the hole behind its
last dot has that name.** -/
theorem stemFor?_fill_eq_some_iff {b : Template} (hb : Jointed b) {names : Names} {old : StateName}
    {stem : Text} :
    stemFor? old.val (b.fill names) = some stem ↔
      ∃ (i : Nat) (u : Template), u ≠ [] ∧ b = u ++ [char '.', hole i] ∧ names i = old ∧
        stem = u.fill names := by
  constructor
  · intro h
    obtain ⟨hname, hne⟩ := mem_of_stemFor? h
    have hdot : isStateChar '.' = false := rfl
    have hmem : char '.' ∈ b := by
      have : '.' ∈ b.fill names := by simp [hname]
      exact (mem_fill hdot).mp this
    obtain ⟨u, v, rfl, hv⟩ := exists_last_of_mem hmem
    -- The last dot of the name is the dot before the state.
    have hlast : some (u.fill names, v.fill names) = some (stem, old.val) := by
      rw [← cutAtLast_append (mt (mem_fill hdot).mp hv), ← cutAtLast_append (old.not_mem hdot),
        ← hname, fill_append, fill_char_cons]
    obtain ⟨hu, hvfill⟩ := Prod.mk.inj (Option.some.inj hlast)
    have hopened : Opened v := opened_of_isSign rfl (jointed_of_append hb).2
    obtain ⟨i, rfl, hi⟩ := eq_hole_of_fill hopened hvfill
    refine ⟨i, u, ?_, rfl, hi, hu.symm⟩
    rintro rfl
    exact hne hu.symm
  · rintro ⟨i, u, hu, rfl, rfl, rfl⟩
    have hfill : Template.fill names (u ++ [char '.', hole i]) =
        u.fill names ++ '.' :: (names i).val := by simp
    rw [hfill, stemFor?_append (mt fill_eq_nil_iff.mp hu)]

/-- What becomes of the name of an attribute. -/
theorem fill_change_name {b : Template} (hb : Jointed b) (hnodup : (holes b).Nodup) {names : Names}
    {old : StateName} (new : StateName) :
    b.fill (names.change (dotHole b).toFinset old new) =
      ((stemFor? old.val (b.fill names)).map (· ++ '.' :: new.val)).getD (b.fill names) := by
  cases hstem : stemFor? old.val (b.fill names) with
  | some stem =>
    obtain ⟨i, u, hu, rfl, hi, rfl⟩ := (stemFor?_fill_eq_some_iff hb).mp hstem
    have hown : i ∈ (dotHole (u ++ [char '.', hole i])).toFinset :=
      List.mem_toFinset.mpr (mem_dotHole.mpr ⟨u, hu, rfl⟩)
    have hu' : ∀ j ∈ holes u, j ∉ (dotHole (u ++ [char '.', hole i])).toFinset := by
      intro j hj hmem
      obtain ⟨u', -, heq⟩ := mem_dotHole.mp (List.mem_toFinset.mp hmem)
      have hij : i = j := by
        have hlast := congrArg List.getLast? heq
        simpa using hlast
      rw [holes_append] at hnodup
      refine (List.nodup_append'.mp hnodup).2.2 hj ?_
      rw [← hij]
      exact List.mem_singleton_self i
    rw [fill_append, fill_change_of_disjoint hu', fill_char_cons, fill_hole_cons,
      Names.change_of_mem hown hi]
    simp
  | none =>
    rw [Names.change_eq_self]
    · rfl
    · intro i hi hold
      obtain ⟨u, hu, hb'⟩ := mem_dotHole.mp (List.mem_toFinset.mp hi)
      have hsome := (stemFor?_fill_eq_some_iff hb).mpr ⟨i, u, hu, hb', hold, rfl⟩
      cases hstem.symm.trans hsome

theorem fill_flatMap {names : Names} (pieces : List PieceTemplate) :
    Template.fill names (pieces.flatMap PieceTemplate.source) =
      pieces.flatMap fun p => p.source.fill names :=
  List.flatMap_assoc

theorem holes_flatMap (pieces : List PieceTemplate) :
    holes (pieces.flatMap PieceTemplate.source) = pieces.flatMap (holes ∘ PieceTemplate.source) :=
  List.filterMap_flatMap

/-- What becomes of an attribute. -/
theorem fill_change_source {p : PieceTemplate} (hname : Jointed p.name)
    (hnodup : (holes p.source).Nodup) {names : Names} {old : StateName} (new : StateName) :
    p.source.fill (names.change (dotHole p.name).toFinset old new) =
      { p.fill names with
        name := ((stemFor? old.val (p.fill names).name).map (· ++ '.' :: new.val)).getD
          (p.fill names).name }.source := by
  have hholes : holes p.source =
      holes (p.skipped ++ p.lead) ++ holes p.name ++ holes (p.assign ++ p.quoted) := by
    simp [PieceTemplate.source]
  rw [hholes] at hnodup
  obtain ⟨hfront, -, hback⟩ := List.nodup_append'.mp hnodup
  obtain ⟨-, hnameNodup, hbefore⟩ := List.nodup_append'.mp hfront
  have hown : ∀ i ∈ (dotHole p.name).toFinset, i ∈ holes p.name := by
    intro i hi
    obtain ⟨u, -, hu⟩ := mem_dotHole.mp (List.mem_toFinset.mp hi)
    rw [mem_holes, hu]
    simp
  rw [PieceTemplate.source, fill_append, fill_append,
    fill_change_of_disjoint fun i hi hmem => hbefore hi (hown i hmem),
    fill_change_of_disjoint fun i hi hmem => hback (List.mem_append_right _ (hown i hmem)) hi,
    fill_change_name hname hnameNodup]
  simp [WrittenPiece.source, WrittenPiece.extent, WrittenPiece.quoted, PieceTemplate.fill,
    PieceTemplate.quoted]

/-- The holes that name states in the names of attributes. -/
def dotHoles (pieces : List PieceTemplate) : List Nat :=
  pieces.flatMap fun p => dotHole p.name

theorem dotHole_subset (p : PieceTemplate) : dotHole p.name ⊆ holes p.source := by
  intro i hi
  obtain ⟨u, -, hu⟩ := mem_dotHole.mp hi
  rw [mem_holes, PieceTemplate.source, hu]
  simp

theorem dotHoles_subset (pieces : List PieceTemplate) :
    dotHoles pieces ⊆ pieces.flatMap (holes ∘ PieceTemplate.source) := by
  intro i hi
  obtain ⟨p, hp, hdot⟩ := List.mem_flatMap.mp hi
  exact List.mem_flatMap.mpr ⟨p, hp, dotHole_subset p hdot⟩

section

variable {head tail : Template} {pieces : List PieceTemplate}
  (hs : Jointed s) (hsource : s = head ++ (pieces.flatMap PieceTemplate.source ++ tail))
  (hofText : ∀ names : Names, TagText.ofText (s.fill names) =
    ⟨head.fill names, pieces.map (PieceTemplate.fill names), tail.fill names⟩)

include hs hsource

theorem jointed_name {p : PieceTemplate} (hp : p ∈ pieces) : Jointed p.name := by
  refine List.IsChain.infix hs ?_
  obtain ⟨front, back, rfl⟩ := List.append_of_mem hp
  rw [hsource]
  refine ⟨head ++ (front.flatMap PieceTemplate.source ++ (p.skipped ++ p.lead)),
    p.assign ++ p.quoted ++ (back.flatMap PieceTemplate.source ++ tail), ?_⟩
  simp [PieceTemplate.source]

include hofText

theorem attributes_reacts_iff {names : Names} {old : StateName} :
    attributes.Reacts old.val (s.fill names) ↔ ∃ i ∈ dotHoles pieces, names i = old := by
  constructor
  · rintro ⟨a, ha, hstem⟩
    rw [hofText] at ha
    obtain ⟨p, hp, rfl⟩ := List.mem_map.mp ha
    obtain ⟨stem, hsome⟩ := Option.isSome_iff_exists.mp hstem
    obtain ⟨i, u, hu, hname, hold, -⟩ :=
      (stemFor?_fill_eq_some_iff (jointed_name hs hsource hp)).mp hsome
    exact ⟨i, List.mem_flatMap.mpr ⟨p, hp, mem_dotHole.mpr ⟨u, hu, hname⟩⟩, hold⟩
  · rintro ⟨i, hi, hold⟩
    obtain ⟨p, hp, hdot⟩ := List.mem_flatMap.mp hi
    obtain ⟨u, hu, hname⟩ := mem_dotHole.mp hdot
    have hsome := (stemFor?_fill_eq_some_iff (jointed_name hs hsource hp)).mpr
      ⟨i, u, hu, hname, hold, rfl⟩
    refine ⟨p.fill names, ?_, Option.isSome_iff_exists.mpr ⟨_, hsome⟩⟩
    rw [hofText]
    exact List.mem_map_of_mem hp

/-- What becomes of a tag when the names of its attributes are rewritten. -/
theorem renameAttributes_fill (hnodup : (holes s).Nodup) (names : Names) (old new : StateName) :
    renameAttributes old.val new.val (s.fill names) =
      s.fill (names.change (dotHoles pieces).toFinset old new) := by
  have hholes : holes s = holes head ++ (pieces.flatMap (holes ∘ PieceTemplate.source) ++
      holes tail) := by
    conv => lhs; rw [hsource, holes_append, holes_append, holes_flatMap]
  rw [hholes] at hnodup
  obtain ⟨-, hrest, hhead⟩ := List.nodup_append'.mp hnodup
  obtain ⟨hpieces, -, htail⟩ := List.nodup_append'.mp hrest
  set seen := (dotHoles pieces).toFinset with hseenDef
  have hseen : ∀ i ∈ seen, i ∈ pieces.flatMap (holes ∘ PieceTemplate.source) :=
    fun i hi => dotHoles_subset pieces (List.mem_toFinset.mp hi)
  have hpiece : ∀ p ∈ pieces, p.source.fill (names.change seen old new) =
      { p.fill names with
        name := ((stemFor? old.val (p.fill names).name).map (· ++ '.' :: new.val)).getD
          (p.fill names).name }.source := by
    intro p hp
    rw [← fill_change_source (jointed_name hs hsource hp) ((List.nodup_flatMap.mp hpieces).1 p hp)]
    refine fill_congr fun i hi => ?_
    have hsame : i ∈ seen ↔ i ∈ (dotHole p.name).toFinset := by
      rw [hseenDef, List.mem_toFinset, List.mem_toFinset, dotHoles,
        mem_flatMap_own hpieces (fun p _ => dotHole_subset p) hp hi]
    simp only [Names.change, hsame]
  have hfillHead : head.fill (names.change seen old new) = head.fill names :=
    fill_change_of_disjoint fun i hi hin => hhead hi (List.mem_append_left _ (hseen i hin))
  have hfillTail : tail.fill (names.change seen old new) = tail.fill names :=
    fill_change_of_disjoint fun i hi hin => htail (hseen i hin) hi
  rw [renameAttributes, hofText, TagText.renamed]
  conv => rhs; rw [hsource, fill_append, fill_append, fill_flatMap, hfillHead, hfillTail,
    List.flatMap_congr hpiece, ← List.append_assoc]
  rw [List.flatMap_map]

end

/-- **The names of a tag's attributes are rewritten at the same holes.** -/
theorem exists_attributes_on (hs : Jointed s) (hnodup : (holes s).Nodup) :
    ∃ seen ⊆ (holes (late s)).toFinset, attributes.On s seen := by
  obtain ⟨head, pieces, tail, hsource, hspace, hofText⟩ := TagText.ofText_fill s
  have hreacts : ∀ {names : Names} {old : StateName}, attributes.Reacts old.val (s.fill names) ↔
      ∃ i ∈ (dotHoles pieces).toFinset, names i = old := by
    intro names old
    simp only [List.mem_toFinset]
    exact attributes_reacts_iff hs hsource hofText
  refine ⟨(dotHoles pieces).toFinset, ?_, ?_, ?_, ?_, ?_, ?_⟩
  · intro i hi
    obtain ⟨p, hp, -⟩ := List.mem_flatMap.mp (List.mem_toFinset.mp hi)
    obtain ⟨c, v, hc, hcv⟩ := hspace (List.ne_nil_of_mem hp)
    have hlate : holes v ⊆ holes (late s) := by
      refine holes_subset_late (u := head ++ [char c]) ?_ ⟨c, hc, by simp⟩
      rw [hsource, hcv]
      simp
    have hsplit : holes v = pieces.flatMap (holes ∘ PieceTemplate.source) ++ holes tail := by
      rw [← holes_char_cons (c := c), ← hcv, holes_append, holes_flatMap]
    rw [List.mem_toFinset]
    apply hlate
    rw [hsplit]
    exact List.mem_append_left _ (dotHoles_subset pieces (List.mem_toFinset.mp hi))
  · intro names old i hi hold
    exact hreacts.mpr ⟨i, hi, hold⟩
  · intro names old hre
    exact Or.inl (hreacts.mp hre)
  · intro names old hre _
    exact hreacts.mp hre
  · intro names old i _ _ _ names' old' _
    trivial
  · intro names old new _
    exact renameAttributes_fill hs hsource hofText hnodup names old new

/-! ## One rewriter after the other -/

/-- Applies rewriters one after the other. -/
def run (steps : List Rewriter) (old new t : Text) : Text :=
  steps.foldl (fun t r => r.apply old new t) t

/-- Whether each of the rewriters, when its turn comes, finds what it rewrites
written in the normal way. -/
def NormalRun : (steps : List Rewriter) → (old new t : Text) → Prop
  | [], _, _, _ => True
  | r :: steps, old, new, t => r.Normal old t ∧ NormalRun steps old new (r.apply old new t)

/-- **Two runs, one with the new name for the old and one with the old name for the
new, change the same holes.** If `done` have been changed before the first run,
and before the second those of `all` that are left, then both go on with the same
holes. -/
theorem exists_run {within : Finset Nat} {steps : List Rewriter}
    (hsteps : ∀ r ∈ steps, ∃ seen ⊆ within, r.On s seen) {names : Names} (old : StateName)
    {new : StateName} (hnew : ∀ i, names i ≠ new) (hfresh : ¬ new.val.map char <:+: s) :
    ∃ changed ⊆ within, (∀ r ∈ steps, ∃ seen ⊆ changed, r.On s seen) ∧ ∀ done all : Finset Nat,
      NormalRun steps old.val new.val (s.fill (names.change done old new)) →
        run steps old.val new.val (s.fill (names.change done old new)) =
            s.fill (names.change (done ∪ changed) old new) ∧
          run steps new.val old.val (s.fill (names.change (all \ done) old new)) =
            s.fill (names.change (all \ (done ∪ changed)) old new) := by
  induction steps with
  | nil =>
    refine ⟨∅, Finset.empty_subset _, by simp, fun done all _ => ?_⟩
    rw [Finset.union_empty]
    exact ⟨rfl, rfl⟩
  | cons r steps ih =>
    obtain ⟨seen, hseen, hon⟩ := hsteps r List.mem_cons_self
    obtain ⟨changed, hchanged, hsees, hrun⟩ :=
      ih fun r hr => hsteps r (List.mem_cons_of_mem _ hr)
    refine ⟨seen ∪ changed, Finset.union_subset hseen hchanged, ?_, fun done all hnormal => ?_⟩
    · intro r' hr'
      rcases List.mem_cons.mp hr' with rfl | hr'
      · exact ⟨seen, Finset.subset_union_left, hon⟩
      · obtain ⟨seen', hseen', hon'⟩ := hsees r' hr'
        exact ⟨seen', hseen'.trans Finset.subset_union_right, hon'⟩
    obtain ⟨hfirst, hothers⟩ := hnormal
    have hthere := hon.apply_eq new hfirst
    rw [Names.change_change] at hthere
    -- On the way back the rewriter finds the new name in the holes it changed.
    have hnormalBack : r.Normal new.val (s.fill (names.change (all \ done) old new)) := by
      refine hon.normal hfirst (fun i _ hi => ?_) hfresh
      obtain ⟨hmem, hold⟩ := Names.of_change_eq (hnew i) hi
      rw [Names.change_of_not_mem (Finset.mem_sdiff.mp hmem).2, hold]
    have hback := hon.apply_eq old hnormalBack
    rw [Names.change_back hnew, sdiff_sdiff, Finset.sup_eq_union] at hback
    rw [hthere] at hothers
    obtain ⟨hto, hfro⟩ := hrun (done ∪ seen) all hothers
    rw [← Finset.union_assoc]
    constructor
    · rw [← hto, ← hthere]
      rfl
    · rw [← hfro, ← hback]
      rfl

/-! ## Renaming in a start tag -/

theorem inSlot_value_apply (name old new tag : Text) :
    (inSlot name value).apply old new tag = editOr (renameValue name old new) tag := by
  cases hfind : ValueSlot.find? name tag with
  | none => simp [inSlot, editOr, renameValue, hfind]
  | some slot =>
    have hsource : slot.replace slot.value = tag := (ValueSlot.enclosed_of_find? hfind).1
    by_cases hvalue : trim slot.value = old
    · simp [inSlot, editOr, renameValue, hfind, value, hvalue]
    · simp [inSlot, editOr, renameValue, hfind, value, hvalue, hsource]

theorem inSlot_list_apply (name old new tag : Text) :
    (inSlot name list).apply old new tag = editOr (StateList.rename name old new) tag := by
  cases hfind : ValueSlot.find? name tag with
  | none => simp [inSlot, editOr, StateList.rename, hfind]
  | some slot =>
    have hsource : slot.replace slot.value = tag := (ValueSlot.enclosed_of_find? hfind).1
    by_cases hentry : old ∈ StateList.entries slot.value
    · simp [inSlot, editOr, StateList.rename, hfind, list, hentry]
    · simp [inSlot, editOr, StateList.rename, hfind, list, hentry, hsource]

/-- The rewriters of a start tag. -/
def ofTag : List Rewriter :=
  [inSlot Word.currentState value, inSlot Word.includeIn list, inSlot Word.excludeFrom list,
    attributes]

theorem renameInTag_eq_run (old new tag : Text) : renameInTag old new tag = run ofTag old new tag := by
  simp only [renameInTag, run, ofTag, List.foldl_cons, List.foldl_nil, inSlot_value_apply,
    inSlot_list_apply]
  rfl

/-- The rewriters that renaming a state uses: those of a start tag, of a
declaration and of the list on the root. -/
def IsStep (r : Rewriter) : Prop :=
  r ∈ ofTag ∨ r = inSlot Word.name value ∨ r = inSlot Word.states list

theorem exists_on_of_isStep (hr : IsStep r) (hs : Jointed s) (hnodup : (holes s).Nodup) :
    ∃ seen ⊆ (holes (late s)).toFinset, r.On s seen := by
  have hvalue : ∀ name, isStateName name = true →
      ∃ seen ⊆ (holes (late s)).toFinset, (inSlot name value).On s seen :=
    fun name hname => exists_inSlot_on hname (fun hv _ => exists_value_on hv) hs hnodup
  have hlist : ∀ name, isStateName name = true →
      ∃ seen ⊆ (holes (late s)).toFinset, (inSlot name list).On s seen :=
    fun name hname => exists_inSlot_on hname exists_list_on hs hnodup
  rcases hr with hr | rfl | rfl
  · simp only [ofTag, List.mem_cons, List.not_mem_nil, or_false] at hr
    rcases hr with rfl | rfl | rfl | rfl
    · exact hvalue _ rfl
    · exact hlist _ rfl
    · exact hlist _ rfl
    · exact exists_attributes_on hs hnodup
  · exact hvalue _ rfl
  · exact hlist _ rfl

end Rewriter

end SkinMarkup
