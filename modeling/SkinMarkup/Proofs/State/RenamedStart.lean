import SkinMarkup.Proofs.Scan.Filled
import SkinMarkup.Proofs.State.RewritingRuns

/-!
# A start tag renamed there and back

What becomes of a start tag when a state is renamed is a run of rewriters
(`renameAction_of_isStart`). If all that is rewritten is written in the normal way
(`NormalStart`) and the new name is not in the tag, then the tag with the new name is
a start tag of the same element, and renaming the state back makes it what it was
(`exists_renamed_back`). This holds also if the root's list of states is rewritten in
between.
-/

namespace SkinMarkup

open Template TemplateSymbol Rewriter

/-! ## Values in normal form -/

/-- If the value of the attribute `name` is a state between blanks, then it is the
state and nothing else. -/
def ExactValue (name old tag : Text) : Prop :=
  ∀ slot ∈ ValueSlot.find? name tag, trim slot.value = old → slot.value = old

/-- If a state is in the list in the attribute `name`, then that list is its entries
between single commas. -/
def NormalList (name old tag : Text) : Prop :=
  ∀ slot ∈ ValueSlot.find? name tag, old ∈ StateList.entries slot.value →
    slot.value = StateList.render (StateList.entries slot.value)

/-- Whether renaming a state takes a start tag for its declaration. -/
def isDeclaration (d : Dialect) (old : Text) (met : Bool) (token : Token) : Bool :=
  !met && token.localName == d.state && (renameValue Word.name old old token.text).isSome

/-- Every value that renaming a state rewrites in a start tag is in normal form when
it is rewritten. -/
structure NormalTag (old new tag : Text) : Prop where
  currentState : ExactValue Word.currentState old tag
  includeIn : NormalList Word.includeIn old (editOr (renameValue Word.currentState old new) tag)
  excludeFrom : NormalList Word.excludeFrom old (editOr (StateList.rename Word.includeIn old new)
    (editOr (renameValue Word.currentState old new) tag))

/-- The same, where the start tag may be the declaration. -/
structure NormalStart (d : Dialect) (old new : Text) (met : Bool) (token : Token) : Prop where
  declaration : isDeclaration d old met token = true → ExactValue Word.name old token.text
  other : isDeclaration d old met token = false → NormalTag old new token.text

instance (name old tag : Text) : Decidable (ExactValue name old tag) :=
  inferInstanceAs (Decidable (∀ slot ∈ ValueSlot.find? name tag, _))

instance (name old tag : Text) : Decidable (NormalList name old tag) :=
  inferInstanceAs (Decidable (∀ slot ∈ ValueSlot.find? name tag, _))

instance (old new tag : Text) : Decidable (NormalTag old new tag) :=
  decidable_of_iff (_ ∧ _ ∧ _)
    ⟨fun h => ⟨h.1, h.2.1, h.2.2⟩, fun h => ⟨h.currentState, h.includeIn, h.excludeFrom⟩⟩

instance (d : Dialect) (old new : Text) (met : Bool) (token : Token) :
    Decidable (NormalStart d old new met token) :=
  decidable_of_iff (_ ∧ _) ⟨fun h => ⟨h.1, h.2⟩, fun h => ⟨h.declaration, h.other⟩⟩

theorem ExactValue.normal {name old tag : Text} (h : ExactValue name old tag) :
    (inSlot name value).Normal old tag := by
  rintro ⟨slot, hslot, hreacts⟩ slot' hslot'
  cases (Option.mem_def.mp hslot).symm.trans hslot'
  exact h slot hslot hreacts

theorem NormalList.normal {name old tag : Text} (h : NormalList name old tag) :
    (inSlot name list).Normal old tag := by
  rintro ⟨slot, hslot, hreacts⟩ slot' hslot'
  cases (Option.mem_def.mp hslot).symm.trans hslot'
  exact h slot hslot hreacts

theorem isSome_renameValue_iff (name old new tag : Text) :
    (renameValue name old new tag).isSome = true ↔ (inSlot name value).Reacts old tag := by
  cases hfind : ValueSlot.find? name tag with
  | none => simp [renameValue, inSlot, hfind]
  | some slot =>
    by_cases hvalue : trim slot.value = old
    · simp [renameValue, inSlot, value, hfind, hvalue]
    · simp [renameValue, inSlot, value, hfind, hvalue]

/-! ## What becomes of a start tag -/

/-- The rewriters of a start tag outside the declarations. -/
def startSteps (d : Dialect) (old : Text) (met : Bool) (token : Token) : List Rewriter :=
  if token.localName = d.declarations then []
  else if isDeclaration d old met token then [inSlot Word.name value]
  else ofTag

theorem isStep_of_mem_startSteps {d : Dialect} {old : Text} {met : Bool} {token : Token}
    {r : Rewriter} (h : r ∈ startSteps d old met token) : IsStep r := by
  unfold startSteps at h
  split at h
  · cases h
  · split at h
    · exact Or.inr (Or.inl (List.mem_singleton.mp h))
    · exact Or.inl h

theorem isDeclaration_iff {d : Dialect} {old : Text} {met : Bool} {token : Token} :
    isDeclaration d old met token = true ↔
      (met = false ∧ token.localName = d.state) ∧
        (inSlot Word.name value).Reacts old token.text := by
  rw [isDeclaration, Bool.and_eq_true, isSome_renameValue_iff]
  simp

theorem renameAction_of_isStart {d : Dialect} {old new : Text} {met : Bool} {token : Token}
    (hstart : token.isStart = true) :
    renameAction d old new met token =
      if token.localName = d.declarations then (met, .pass)
      else (met || isDeclaration d old met token,
        .replace (run (startSteps d old met token) old new token.text)) := by
  rw [renameAction, hstart, Bool.not_true, if_neg Bool.false_ne_true, startSteps]
  split
  · rfl
  · have hsome := isSome_renameValue_iff Word.name old new token.text
    rw [← isSome_renameValue_iff Word.name old old token.text] at hsome
    by_cases hstate : (!met && token.localName == d.state) = true
    · simp only [hstate, if_true, isDeclaration, Bool.true_and]
      cases hrename : renameValue Word.name old new token.text with
      | some tag =>
        rw [hrename] at hsome
        have hrun : run [inSlot Word.name value] old new token.text = tag := by
          have happly := inSlot_value_apply Word.name old new token.text
          rw [editOr, hrename] at happly
          exact happly
        simp [hsome.mp rfl, hrun]
      | none =>
        rw [hrename] at hsome
        have hno : (renameValue Word.name old old token.text).isSome = false :=
          Bool.eq_false_iff.mpr fun h => by simp [h] at hsome
        simp [hno, renameInTag_eq_run]
    · simp [hstate, isDeclaration, renameInTag_eq_run]

theorem NormalStart.normalRun {d : Dialect} {old new : Text} {met : Bool} {token : Token}
    (h : token.localName ≠ d.declarations → NormalStart d old new met token) :
    NormalRun (startSteps d old met token) old new token.text := by
  unfold startSteps
  split
  · trivial
  · next hname =>
    split
    · next hdecl => exact ⟨((h hname).declaration hdecl).normal, trivial⟩
    · next hother =>
      have htag := (h hname).other (by simpa using hother)
      refine ⟨htag.currentState.normal, ?_, ?_, fun _ => trivial, trivial⟩
      · rw [inSlot_value_apply]
        exact htag.includeIn.normal
      · rw [inSlot_value_apply, inSlot_list_apply]
        exact htag.excludeFrom.normal

/-! ## There and back -/

theorem Template.isInfix_fill {u s : Template} (names : Names) (h : u <:+: s) :
    u.fill names <:+: s.fill names := by
  obtain ⟨a, b, rfl⟩ := h
  exact ⟨Template.fill names a, Template.fill names b, by simp⟩

/-- A text without a name is a template in which no hole has that name. -/
theorem exists_template_of_fresh (new : StateName) {t : Text} (hfresh : ¬ new.val <:+: t) :
    ∃ (s : Template) (names : Names), s.fill names = t ∧ Jointed s ∧ (holes s).Nodup ∧
      (∀ i, names i ≠ new) ∧ ¬ new.val.map char <:+: s := by
  have hdouble : isStateName (new.val ++ new.val) = true := by
    simpa [isStateName, new.ne_nil] using fun c hc => new.isStateChar hc
  obtain ⟨s, names, hfill, hs, hnodup, hnames⟩ := exists_template ⟨new.val ++ new.val, hdouble⟩ t
  refine ⟨s, names, hfill, hs, hnodup, fun i hi => ?_, fun hpart => ?_⟩
  · rcases hnames i with hdefault | hpart
    · have hlength := congrArg (fun name : StateName => name.val.length) (hdefault.symm.trans hi)
      exact new.ne_nil (by simpa using hlength)
    · exact hfresh (hi ▸ hpart)
  · have hwithin := isInfix_fill names hpart
    rw [fill_map_char, hfill] at hwithin
    exact hfresh hwithin

/-- A start tag renamed there and back: it becomes `there`, then `further` by the
rewriters `extra`, and on the way back `back`, from which `extra` restores it. -/
structure ThereAndBack (d : Dialect) (old new : Text) (met : Bool) (token : Token)
    (extra : List Rewriter) (there further back : Text) : Prop where
  renamed : run (startSteps d old met token) old new token.text = there
  extended : run extra old new there = further
  renamedBack : run (startSteps d old met token) new old further = back
  restored : run extra new old back = token.text
  isCut : ∀ text ∈ [there, further, back], Token.IsCut { token with text }
  localName_eq : Token.localName { token with text := further } = token.localName
  isDeclaration_eq : token.localName ≠ d.declarations →
    isDeclaration d new met { token with text := further } = isDeclaration d old met token

/-- **A start tag is restored when a state is renamed back.** -/
theorem exists_renamed_back (d : Dialect) {old new : StateName} {met : Bool} {token : Token}
    (hcut : token.IsCut) (hstart : token.isStart = true) (hfresh : ¬ new.val <:+: token.text)
    {extra : List Rewriter} (hextra : ∀ r ∈ extra, IsStep r)
    (hnormal : NormalRun (startSteps d old.val met token) old.val new.val token.text)
    (hnormalExtra : NormalRun extra old.val new.val
      (run (startSteps d old.val met token) old.val new.val token.text)) :
    ∃ there further back,
      ThereAndBack d old.val new.val met token extra there further back := by
  obtain ⟨s, names, hfill, hs, hnodup, hnames, hfreshTemplate⟩ :=
    exists_template_of_fresh new hfresh
  have hsteps : ∀ r ∈ startSteps d old.val met token,
      ∃ seen ⊆ (holes (late s)).toFinset, r.On s seen :=
    fun r hr => exists_on_of_isStep (isStep_of_mem_startSteps hr) hs hnodup
  obtain ⟨first, hfirst, hsees, hrun⟩ := exists_run hsteps old hnames hfreshTemplate
  obtain ⟨second, hsecond, -, hrunExtra⟩ :=
    exists_run (fun r hr => exists_on_of_isStep (hextra r hr) hs hnodup) old hnames hfreshTemplate
  have hnone : names.change ∅ old new = names := Names.change_eq_self (by simp)
  -- The tag's rewriters have changed `first` on their own, and both `first` and `second`.
  obtain ⟨hthere, hback⟩ := hrun ∅ (first ∪ second) (by rwa [hnone, hfill])
  rw [hnone, hfill, Finset.empty_union] at hthere
  rw [Finset.sdiff_empty, Finset.empty_union] at hback
  obtain ⟨hfurther, hrestored⟩ := hrunExtra first (first ∪ second) (by rwa [← hthere])
  rw [sdiff_self, Finset.bot_eq_empty, hnone, hfill] at hrestored
  have hisCut : ∀ names' : Names, Token.IsCut { token with text := s.fill names' } :=
    hcut.refill hstart hfill.symm
  have hname : Token.localName
      { token with text := s.fill (names.change (first ∪ second) old new) } = token.localName := by
    refine Token.localName_refill hcut hstart hfill.symm fun i hi => Names.change_of_not_mem ?_
    intro hmem
    have hlate := Finset.union_subset hfirst hsecond hmem
    have hsplit : holes s = holes (s.takeWhile (lift (!isSpace ·))) ++ holes (late s) := by
      rw [late, ← holes_append, List.takeWhile_append_dropWhile]
    rw [hsplit] at hnodup
    exact (List.nodup_append'.mp hnodup).2.2 hi (List.mem_toFinset.mp hlate)
  refine ⟨_, _, _, ⟨hthere, hfurther, hback, hrestored, ?_, hname, ?_⟩⟩
  · simpa using ⟨hisCut _, hisCut _, hisCut _⟩
  intro hdeclarations
  rw [Bool.eq_iff_iff, isDeclaration_iff, isDeclaration_iff, hname, ← hfill]
  refine and_congr_right fun hplace => ⟨fun hreacts => ?_, fun hreacts => ?_⟩
  · obtain ⟨seen, -, hon⟩ := exists_on_of_isStep (Or.inr (Or.inl rfl)) hs hnodup
    rcases hon.seen_of_reacts hreacts with ⟨i, hi, hnew⟩ | hpart
    · exact hon.reacts hi (Names.of_change_eq (hnames i) hnew).2
    · exact absurd hpart hfreshTemplate
  · -- The declaration has been rewritten, so it has the new name now.
    have hdecl : isDeclaration d old.val met token = true :=
      isDeclaration_iff.mpr ⟨hplace, hfill ▸ hreacts⟩
    have hsole : startSteps d old.val met token = [inSlot Word.name value] := by
      rw [startSteps, if_neg hdeclarations, if_pos hdecl]
    rw [hsole] at hnormal hsees
    obtain ⟨seen, hseen, hon⟩ := hsees _ (List.mem_singleton_self _)
    have hexact := hnormal.1 (hfill ▸ hreacts)
    rw [← hfill] at hexact
    obtain ⟨i, hi, hold⟩ := hon.seen_of_exact hreacts hexact
    exact hon.reacts hi (Names.change_of_mem (Finset.mem_union_left _ (hseen hi)) hold)

end SkinMarkup
