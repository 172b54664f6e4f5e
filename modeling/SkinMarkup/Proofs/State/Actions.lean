import SkinMarkup.Proofs.State.Sites
import SkinMarkup.State.Remove
import SkinMarkup.State.Rename

/-!
# What becomes of a token

The decisions that creating, renaming and removing a state make about a token, told
apart by what the token is. All of them keep a token that starts no element and pass
over a block of declarations.
-/

namespace SkinMarkup

/-! ## Flags of open elements -/

/-- Where elements stand, given the flags of the elements that are open. -/
def Standing.ofLevels : List Bool → Standing
  | [] => .root
  | true :: _ => .direct
  | false :: _ => .deeper

/-- An open element leaves a flag for the elements in it. -/
theorem Standing.ofLevels_cons (d : Dialect) (name : Text) (standing : Standing) (levels : List Bool) :
    ofLevels (decide (d.below name standing = .direct) :: levels) = d.below name standing := by
  have hcases : d.below name standing = .direct ∨ d.below name standing = .deeper := by
    unfold Dialect.below
    split
    · split <;> simp
    · split <;> simp
    · simp
  rcases hcases with heq | heq <;> rw [heq] <;> rfl

variable {d : Dialect} {allStates : List Text} {state model old new : Text} {token : Token}

namespace Markup

/-- The flag that an open element leaves, unless it is a block of declarations. -/
theorem decide_below {name : Text} (hblock : localOf name ≠ d.declarations) (level : Bool)
    (levels : List Bool) :
    decide (d.below name (Standing.ofLevels (level :: levels)) = .direct) =
      (level && d.isContainer (localOf name)) := by
  cases level with
  | false => rfl
  | true =>
    rw [Standing.ofLevels, Dialect.below]
    cases hcontainer : d.isContainer (localOf name) <;> simp [hblock]

theorem isScoped_ofLevels {name : Text} (hblock : localOf name ≠ d.declarations) (level : Bool)
    (levels : List Bool) :
    d.isScoped (Standing.ofLevels (level :: levels)) name =
      (level && !(level && d.isContainer (localOf name)) && d.isComponentName name) := by
  rw [Dialect.isScoped]
  cases level with
  | false => rfl
  | true => simp [Standing.ofLevels, bne_iff_ne.mpr hblock]

end Markup

/-! ## A blank state -/

theorem blankAction_of_not_isStart (h : token.isStart = false) (levels : List Bool) :
    blankAction d allStates state levels token =
      (if token.kind = .closing then levels.drop 1 else levels, .keep) := by
  unfold blankAction
  split
  · rfl
  · rw [if_pos (by simp [h])]

theorem ne_closing_of_isStart (h : token.isStart = true) : token.kind ≠ .closing := by
  intro hkind
  rw [Token.isStart, hkind] at h
  cases h

theorem blankAction_of_declarations (h : token.isStart = true)
    (hname : token.localName = d.declarations) (levels : List Bool) :
    blankAction d allStates state levels token = (levels, .pass) := by
  unfold blankAction
  rw [if_neg (ne_closing_of_isStart h), if_neg (by simp [h]), if_pos hname]

/-- A start tag outside the blocks of declarations leaves a flag for the elements in
it. It is kept, or it is a component that is scoped out. -/
theorem blankAction_of_isStart (allStates : List Text) (state : Text) (h : token.isStart = true)
    (hname : token.localName ≠ d.declarations) (levels : List Bool) :
    ∃ action, blankAction d allStates state levels token =
        (if token.kind = .opening then
            decide (d.below token.name (Standing.ofLevels levels) = .direct) :: levels
          else levels, action) ∧
      (action = .keep ∧ (d.isScoped (Standing.ofLevels levels) token.name = true →
          scopeOut token.kind allStates state token.text = none) ∨
        ∃ tag, action = .replace tag ∧
          d.isScoped (Standing.ofLevels levels) token.name = true ∧
          scopeOut token.kind allStates state token.text = some tag) := by
  have hcomponent : d.isComponent token = d.isComponentName token.name := rfl
  have hblock : localOf token.name ≠ d.declarations := hname
  unfold blankAction
  rw [if_neg (ne_closing_of_isStart h), if_neg (by simp [h]), if_neg hname]
  cases levels with
  | nil =>
    refine ⟨.keep, ?_, Or.inl ⟨rfl, nofun⟩⟩
    simp [Standing.ofLevels, Dialect.below, hblock]
  | cons level levels =>
    rw [Markup.decide_below hblock, Markup.isScoped_ofLevels hblock]
    dsimp only
    split
    · next hscoped =>
      cases hscope : scopeOut token.kind allStates state token.text with
      | none => exact ⟨.keep, rfl, Or.inl ⟨rfl, fun _ => rfl⟩⟩
      | some tag => exact ⟨.replace tag, rfl, Or.inr ⟨tag, rfl, hscoped, rfl⟩⟩
    · next hscoped => exact ⟨.keep, rfl, Or.inl ⟨rfl, fun heq => absurd heq hscoped⟩⟩

/-! ## A copied state -/

theorem copyAction_of_not_isStart (h : token.isStart = false) :
    copyAction d model state token = .keep := by
  rw [copyAction, h]
  rfl

theorem copyAction_of_declarations (h : token.isStart = true)
    (hname : token.localName = d.declarations) : copyAction d model state token = .pass := by
  rw [copyAction, if_neg (by simp [h]), if_pos hname]

theorem copyAction_of_isStart (h : token.isStart = true) (hname : token.localName ≠ d.declarations) :
    copyAction d model state token = .replace (copyTag token.kind model state token.text) := by
  rw [copyAction, if_neg (by simp [h]), if_neg hname]

/-! ## A renamed state -/

theorem renameAction_of_not_isStart {met : Bool} (h : token.isStart = false) :
    renameAction d old new met token = (met, .keep) := by
  rw [renameAction, h]
  rfl

theorem renameAction_of_declarations {met : Bool} (h : token.isStart = true)
    (hname : token.localName = d.declarations) :
    renameAction d old new met token = (met, .pass) := by
  rw [renameAction, if_neg (by simp [h]), if_pos hname]

/-- A start tag outside the blocks of declarations is renamed as the declaration of the
state or as any other tag. -/
theorem renameAction_of_isStart_cases {met : Bool} (h : token.isStart = true)
    (hname : token.localName ≠ d.declarations) :
    ∃ met' tag, renameAction d old new met token = (met', .replace tag) ∧
      (token.localName = d.state ∧ renameValue Word.name old new token.text = some tag ∨
        tag = renameInTag old new token.text) := by
  unfold renameAction
  rw [if_neg (by simp [h]), if_neg hname]
  dsimp only
  split
  · next tag hdeclaration =>
    split at hdeclaration
    · next hcondition =>
      simp only [Bool.and_eq_true, beq_iff_eq] at hcondition
      exact ⟨true, tag, rfl, Or.inl ⟨hcondition.2, hdeclaration⟩⟩
    · cases hdeclaration
  · exact ⟨met, _, rfl, Or.inr rfl⟩

/-! ## A removed state -/

theorem removeAction_of_not_isStart {met : Bool} (h : token.isStart = false) :
    removeAction d state allStates met token = (met, .keep) := by
  rw [removeAction, h]
  rfl

theorem removeAction_of_declarations {met : Bool} (h : token.isStart = true)
    (hname : token.localName = d.declarations) :
    removeAction d state allStates met token = (met, .pass) := by
  unfold removeAction
  rw [if_neg (by simp [h]), if_pos hname]

/-- A start tag is written without the state or not at all. -/
theorem removeAction_of_isStart_cases (d : Dialect) (state : Text) (allStates : List Text)
    (met : Bool) (h : token.isStart = true) (hname : token.localName ≠ d.declarations) :
    (removeAction d state allStates met token).2 = .erase ∨
      ∃ tag, removeFromTag state allStates token.text = some tag ∧
        (removeAction d state allStates met token).2 = .replace tag := by
  unfold removeAction
  rw [if_neg (by simp [h]), if_neg hname]
  split
  · exact Or.inl rfl
  · split
    · exact Or.inl rfl
    · split
      · next hsome => exact Or.inr ⟨_, hsome, rfl⟩
      · exact Or.inl rfl

theorem removeFromTag_of_removeAction {met met' : Bool} {tag : Text} (h : token.isStart = true)
    (hact : removeAction d state allStates met token = (met', .replace tag)) :
    removeFromTag state allStates token.text = some tag := by
  by_cases hname : token.localName = d.declarations
  · rw [removeAction_of_declarations h hname] at hact
    cases hact
  · rcases removeAction_of_isStart_cases d state allStates met h hname with
      herase | ⟨tag', hremove, hreplace⟩
    · rw [hact] at herase
      cases herase
    · rw [hact] at hreplace
      cases hreplace
      exact hremove

/-! ## The list on the root -/

/-- The tag of a root with a state in its list. -/
def declaredTag (state : Text) (root : Token) : Text :=
  if (ValueSlot.find? Word.states root.text).isSome then
    editOr (StateList.extend Word.states state fun _ => true) root.text
  else
    insertAttribute root.kind Word.states state root.text

theorem some_declaredTag (state : Text) (root : Token) :
    some (declaredTag state root) = match ValueSlot.find? Word.states root.text with
      | some _ => some ((StateList.extend Word.states state (fun _ => true) root.text).getD root.text)
      | none => some (insertAttribute root.kind Word.states state root.text) := by
  rw [declaredTag]
  cases ValueSlot.find? Word.states root.text <;> rfl

/-- Declaring a state edits the tag of the root. -/
theorem declareState_eq (state t : Text) :
    declareState state t = match editRoot (fun root => some (declaredTag state root)) t with
      | some text => ⟨text, true⟩
      | none => ⟨t, false⟩ := by
  rw [funext (some_declaredTag state)]
  rfl

theorem declareState_text (state t : Text) :
    (declareState state t).text = (editRoot (fun root => some (declaredTag state root)) t).getD t := by
  rw [declareState_eq]
  cases editRoot (fun root => some (declaredTag state root)) t <;> rfl

end SkinMarkup
