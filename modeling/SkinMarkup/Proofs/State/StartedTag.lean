import SkinMarkup.Proofs.Markup.Sound
import SkinMarkup.Proofs.State.Enrolled
import SkinMarkup.Proofs.State.Starting

/-!
# The place of the state to start in

The state to start in has one place in a root: the value of its attribute, or else the
value of a new one in front of the first declared prefix or behind the last attribute.
The root with the attribute in this place is the seat of the state (`Seats`). Setting a
state gives the seat a value (`Sound.exists_seat`), and then the attribute is found by its
spelling, wherever it went: a second state takes the value's place
(`Seats.startStateTag_some`), and without a state the attribute goes again
(`Seats.startStateTag_none`).

Where the name of the root ends in a blank, trimming cuts it off if nothing stands between
the name and the attribute. `Apart` says that something does.
-/

namespace SkinMarkup

namespace StartTag

variable {t u : StartTag} {p q : WrittenPiece} {l r : List WrittenPiece}
  {name a b : Text} {selfClosing : Bool}

/-! ## A value that is written twice -/

theorem rewrite_set_set (name a b : Text) (t : StartTag) :
    (t.rewrite (.set name a)).rewrite (.set name b) = t.rewrite (.set name b) := by
  rw [rewrite_rewrite]
  congr 1
  funext other old
  by_cases h : other = name <;> simp [ValueEdit.set, h]

theorem rewrite_set_drop (name a : Text) (t : StartTag) :
    (t.rewrite (.set name a)).rewrite (.drop (· = name)) = t.rewrite (.drop (· = name)) := by
  rw [rewrite_rewrite]
  congr 1
  funext other old
  by_cases h : other = name <;> simp [ValueEdit.set, ValueEdit.drop, h]

theorem rewrite_drop_drop (names : Text → Bool) (t : StartTag) :
    (t.rewrite (.drop names)).rewrite (.drop names) = t.rewrite (.drop names) := by
  rw [rewrite_rewrite]
  congr 1
  funext other old
  cases h : names other <;> simp [ValueEdit.drop, h]

/-! ## The seat -/

theorem avoids_nil (name : Text) : Avoids name [] := by
  simp [Avoids, ValueSlot.flatten]

theorem Clear.of_entries (h : t.Clear name)
    (hentries : u.pieces.map WrittenPiece.entry = t.pieces.map WrittenPiece.entry) :
    u.Clear name := by
  have hmem : ∀ q ∈ u.pieces, ∃ p ∈ t.pieces, p.name = q.name ∧ p.value = q.value := by
    intro q hq
    have hentry : q.entry ∈ t.pieces.map WrittenPiece.entry := hentries ▸ List.mem_map_of_mem hq
    obtain ⟨p, hp, heq⟩ := List.mem_map.mp hentry
    exact ⟨p, hp, congrArg Prod.fst heq, congrArg Prod.snd heq⟩
  refine ⟨fun q hq => ?_, fun q hq hname => ?_⟩
  · obtain ⟨p, hp, -, hvalue⟩ := hmem q hq
    exact hvalue ▸ h.avoids p hp
  · obtain ⟨p, hp, hsame, hvalue⟩ := hmem q hq
    exact hvalue ▸ h.value p hp (hsame.trans hname)

theorem Clear.insert (h : t.Clear name) (hsplit : t.pieces = l ++ r) (havoids : Avoids name q.value)
    (hvalue : ListValue q.value) : Clear name { t with pieces := l ++ q :: r } := by
  have hmem : ∀ p ∈ l ++ q :: r, p ∈ t.pieces ∨ p = q := by
    intro p hp
    rw [hsplit]
    simp only [List.mem_append, List.mem_cons] at hp ⊢
    tauto
  refine ⟨fun p hp => ?_, fun p hp hname => ?_⟩
  · rcases hmem p hp with hp | rfl
    · exact h.avoids p hp
    · exact havoids
  · rcases hmem p hp with hp | rfl
    · exact h.value p hp hname
    · exact hvalue


/-- A root whose name is not cut where the state to start in goes or stands: it ends in no
blank, or an attribute that stays in front follows it. -/
def Apart (t : StartTag) : Prop :=
  t.Solid ∨ ∃ p ∈ t.pieces.head?, p.name ≠ Word.currentState ∧
    (t.value? Word.currentState = none → startsWith Namespace.marker p.name = false)

/-- The tag `t` with a place for the state to start in. -/
structure Seats (t u : StartTag) : Prop where
  sound : u.Sound
  clear : u.Clear Word.currentState
  seated : (u.value? Word.currentState).isSome = true
  name : u.name = t.name
  others : (u.rewrite (.drop (· = Word.currentState))).pieces.map WrittenPiece.read =
    (t.rewrite (.drop (· = Word.currentState))).pieces.map WrittenPiece.read
  solid : ∀ p ∈ u.pieces.head?, p.name = Word.currentState → u.Solid

theorem Seats.of_value? (h : t.Sound) (hclear : t.Clear Word.currentState) (hapart : t.Apart)
    (hvalue : (t.value? Word.currentState).isSome = true) : Seats t t where
  sound := h
  clear := hclear
  seated := hvalue
  name := rfl
  others := rfl
  solid := by
    intro p hp hname
    rcases hapart with hsolid | ⟨q, hq, hother, -⟩
    · exact hsolid
    · cases hp.symm.trans hq
      exact absurd hname hother

/-- A new attribute among attributes that are read like those of the tag. -/
theorem Seats.of_insert {t' : StartTag} (h : t'.Sound) (hsplit : t'.pieces = l ++ r)
    (hname : t'.name = t.name) (hread : t'.pieces.map WrittenPiece.read = t.pieces.map WrittenPiece.read)
    (hclear : t'.Clear Word.currentState) (hq : q.Sound) (hqname : q.name = Word.currentState)
    (hqvalue : q.value = []) (hnew : t.value? Word.currentState = none)
    (hsolid : l = [] → t.Solid) (hfirst : ∀ p ∈ l.head?, p.name ≠ Word.currentState) :
    Seats t { t' with pieces := l ++ q :: r } := by
  have hnames : t'.pieces.map (·.name) = t.pieces.map (·.name) := by
    have hfst := congrArg (List.map Prod.fst) hread
    rwa [List.map_map, List.map_map] at hfst
  have hnot : q.name ∉ t'.pieces.map (·.name) := by
    rw [hnames, hqname]
    exact not_mem_of_value? hnew
  have hsound := h.insert hsplit hq hnot
  have hempty : ListValue q.value := by
    rw [hqvalue]
    exact ⟨List.not_mem_nil, List.not_mem_nil, List.not_mem_nil⟩
  refine ⟨hsound, hclear.insert hsplit (hqvalue ▸ avoids_nil _) hempty, ?_, hname, ?_, ?_⟩
  · rw [← hqname, hsound.tidy.value?_of_mem (p := q) (by simp)]
    rfl
  · have hdrop := hsound.tidy.rewrite_drop (l := l) (p := q) (r := r) rfl
    have hself : t.rewrite (.drop (· = Word.currentState)) = t := by
      refine rewrite_eq_self fun p hp => ?_
      have hne : p.name ≠ Word.currentState := fun heq =>
        not_mem_of_value? hnew (heq ▸ List.mem_map_of_mem hp)
      simp [ValueEdit.drop, hne]
    rw [← hqname, hdrop, hqname, hself, ← hread, hsplit]
  · intro p hp hpname
    cases l with
    | nil =>
      rw [Solid, hname]
      exact hsolid rfl
    | cons x xs => exact absurd hpname (hfirst p hp)

/-- The state to start in, not yet set. -/
theorem sound_startState : (WrittenPiece.usual Word.currentState []).Sound :=
  WrittenPiece.sound_usual isWord_currentState.nonempty isWord_currentState.chars List.not_mem_nil
    List.not_mem_nil List.not_mem_nil

/-- A new attribute behind the last one. -/
theorem Seats.of_last (h : t.Sound) (hclear : t.Clear Word.currentState)
    (hnew : t.value? Word.currentState = none) (hsolid : t.pieces = [] → t.Solid) :
    Seats t { t with pieces := t.pieces ++ [.usual Word.currentState []] } :=
  .of_insert h (List.append_nil _).symm rfl rfl hclear sound_startState rfl rfl hnew hsolid
    fun _ hp heq => not_mem_of_value? hnew (heq ▸ List.mem_map_of_mem (List.mem_of_mem_head? hp))

/-- A new attribute in front of one that declares a prefix. -/
theorem Seats.of_declaration (h : t.Sound) (hclear : t.Clear Word.currentState)
    (hsplit : t.pieces = l ++ p :: r) (hnew : t.value? Word.currentState = none)
    (hsolid : l = [] → t.Solid) :
    Seats t { t with pieces := l ++ (insertBefore Word.currentState [] p ++ r) } := by
  obtain ⟨hp, hl, -⟩ := mem_of_split hsplit
  have hpiece := h.piece hp
  have hspace : MarkupSpaces [' '] := List.forall_mem_singleton.mpr rfl
  have hbehind : (⟨[], [' '], p.name, p.assign, p.value, p.quote⟩ : WrittenPiece).Sound := by
    have hrespaced := hpiece.respace (List.cons_ne_nil ' ' []) hspace
    rwa [hpiece.regular.skipped] at hrespaced
  have hfront : (⟨p.skipped, p.lead, Word.currentState, ['='], [], some '"'⟩ : WrittenPiece).Sound := by
    rw [hpiece.regular.skipped]
    exact sound_startState.respace hpiece.spaced hpiece.regular.lead
  -- The attribute that declares a prefix stands behind a space now, and reads as before.
  have hmoved := h.swap hsplit hbehind rfl
  have hclear' : Clear Word.currentState
      { t with pieces := l ++ ⟨[], [' '], p.name, p.assign, p.value, p.quote⟩ :: r } := by
    refine hclear.of_entries ?_
    rw [hsplit]
    simp [WrittenPiece.entry]
  have hread : (l ++ ⟨[], [' '], p.name, p.assign, p.value, p.quote⟩ :: r).map WrittenPiece.read =
      t.pieces.map WrittenPiece.read := by
    rw [hsplit]
    simp [WrittenPiece.read]
  have hfirst : ∀ q ∈ l.head?, q.name ≠ Word.currentState := fun q hq heq =>
    not_mem_of_value? hnew (heq ▸ List.mem_map_of_mem (hl (List.mem_of_mem_head? hq)))
  have hseats := Seats.of_insert (t := t) hmoved rfl rfl hread hclear' hfront rfl rfl hnew hsolid hfirst
  exact hseats

/-- **A sound root has a seat for the state to start in.** Setting a state gives the seat
that value. -/
theorem Sound.exists_seat (h : t.Sound) (hclear : t.Clear Word.currentState) (hapart : t.Apart)
    (selfClosing : Bool) :
    ∃ u, Seats t u ∧ ∀ a, startStateTag (.ofStart selfClosing) (some a) (t.text selfClosing) =
      (u.rewrite (.set Word.currentState a)).text selfClosing := by
  have hword := isWord_currentState
  cases hvalue : t.value? Word.currentState with
  | some value =>
    obtain ⟨slot, hfind, -, hreplace, -⟩ := h.tidy.exists_slot hclear hvalue selfClosing
    refine ⟨t, .of_value? h hclear hapart (by rw [hvalue]; rfl), fun a => ?_⟩
    unfold startStateTag
    rw [hfind]
    exact hreplace a
  | none =>
    have hset : ∀ a, startStateTag (.ofStart selfClosing) (some a) (t.text selfClosing) =
        insertStartState (.ofStart selfClosing) a (t.text selfClosing) := fun a => by
      unfold startStateTag
      rw [h.tidy.find?_of_value?_eq_none hclear hword.nonempty hword.chars hvalue]
    rcases insertBeforeDeclaration_cases t.pieces with hnone | ⟨l, p, r, hsplit, hmarked, hsome⟩
    · -- Behind the last attribute.
      have hsolid : t.pieces = [] → t.Solid := fun hnil => by
        rcases hapart with hsolid | ⟨p, hp, -⟩
        · exact hsolid
        · rw [hnil] at hp
          cases hp
      have hseat := Seats.of_last h hclear hvalue hsolid
      refine ⟨_, hseat, fun a => ?_⟩
      have hinsert := h.tidy.regular.insertRaw_text hsolid [.usual Word.currentState a] selfClosing
      rw [List.flatMap_singleton, WrittenPiece.source_usual] at hinsert
      rw [hset, insertStartState, h.tidy.ofText_text]
      dsimp only
      rw [hnone]
      exact hinsert.trans (congrArg (text selfClosing)
        (hseat.sound.tidy.rewrite_set (p := .usual Word.currentState []) rfl a).symm)
    · -- In front of the first declared prefix.
      have hsolid : l = [] → t.Solid := by
        rintro rfl
        rcases hapart with hsolid | ⟨q, hq, -, hother⟩
        · exact hsolid
        · rw [hsplit] at hq
          cases hq
          cases (hother hvalue).symm.trans hmarked
      have hseat := Seats.of_declaration h hclear hsplit hvalue hsolid
      refine ⟨_, hseat, fun a => ?_⟩
      rw [hset, insertStartState, h.tidy.ofText_text]
      dsimp only
      rw [hsome]
      have hvalued := hseat.sound.tidy.rewrite_set (l := l) (r := _ :: r) rfl a
      refine Eq.trans ?_ (congrArg (text selfClosing) hvalued.symm)
      simp [text, content, WrittenPiece.source, WrittenPiece.extent, WrittenPiece.quoted]

/-! ## The seat with a value -/

/-- Sound tags of one name that read the same without an attribute. -/
theorem Sound.sameBut (h : t.Sound) (h' : u.Sound) (hname : u.name = t.name)
    (hothers : (u.rewrite (.drop (· = name))).pieces.map WrittenPiece.read =
      (t.rewrite (.drop (· = name))).pieces.map WrittenPiece.read) :
    SameBut name t.content u.content := by
  have hfilter : ∀ {x : StartTag}, x.Sound → (entriesOf x.content).filter (·.1 ≠ name) =
      (x.rewrite (.drop (· = name))).pieces.map WrittenPiece.read := by
    intro x hx
    rw [hx.entriesOf_content, pieces_rewrite_drop, List.filter_map]
    congr 1
    refine List.filter_congr fun p _ => ?_
    by_cases h : p.name = name <;> simp [WrittenPiece.read, h]
  constructor
  · rw [h.tidy.regular.elementName_content, h'.tidy.regular.elementName_content, hname]
  · rw [hfilter h, hfilter h', hothers]

section

variable (h : Seats t u)

include h

theorem Seats.sound_set (ha : isStateName a = true) :
    (u.rewrite (.set Word.currentState a)).Sound := by
  refine h.sound.rewrite fun p _ value hvalue => ?_
  by_cases hname : p.name = Word.currentState
  · simp only [ValueEdit.set, hname, if_true, Option.some.injEq] at hvalue
    subst hvalue
    exact Or.inr ⟨listValue_of_isStateName ha, not_mem_of_isStateName ha rfl,
      not_mem_of_isStateName ha rfl⟩
  · simp only [ValueEdit.set, hname, if_false, Option.some.injEq] at hvalue
    exact Or.inl hvalue.symm

theorem Seats.exists_slot (ha : isStateName a = true) (selfClosing : Bool) :
    ∃ slot, ValueSlot.find? Word.currentState
        ((u.rewrite (.set Word.currentState a)).text selfClosing) = some slot ∧
      (∀ b, slot.replace b = (u.rewrite (.set Word.currentState b)).text selfClosing) ∧
      slot.remove = (u.rewrite (.drop (· = Word.currentState))).text selfClosing := by
  have hclear : (u.rewrite (.set Word.currentState a)).Clear Word.currentState := by
    refine h.clear.rewrite fun p _ value hvalue => ?_
    by_cases hname : p.name = Word.currentState
    · simp only [ValueEdit.set, hname, if_true, Option.some.injEq] at hvalue
      subst hvalue
      exact Or.inr ⟨avoids_of_isStateName ha _, listValue_of_isStateName ha⟩
    · simp only [ValueEdit.set, hname, if_false, Option.some.injEq] at hvalue
      exact Or.inl hvalue.symm
  obtain ⟨slot, hfind, -, hreplace, hremove⟩ := (h.sound_set ha).tidy.exists_slot hclear
    (value?_set_self h.seated a) selfClosing
  refine ⟨slot, hfind, fun b => ?_, ?_⟩
  · rw [hreplace, rewrite_set_set]
  · rw [hremove, rewrite_set_drop]
    intro p hp hname
    cases hpieces : u.pieces with
    | nil =>
      simp only [rewrite, hpieces] at hp
      cases hp
    | cons q others =>
      simp only [rewrite, hpieces, List.filterMap_cons, rewritePiece, ValueEdit.set] at hp
      cases hp
      exact h.solid q (by rw [hpieces]; rfl) hname

/-- **A second state takes the place of the first.** -/
theorem Seats.startStateTag_some (ha : isStateName a = true) (b : Text) (selfClosing : Bool) :
    startStateTag (.ofStart selfClosing) (some b)
        ((u.rewrite (.set Word.currentState a)).text selfClosing) =
      (u.rewrite (.set Word.currentState b)).text selfClosing := by
  obtain ⟨slot, hfind, hreplace, -⟩ := h.exists_slot ha selfClosing
  unfold startStateTag
  rw [hfind]
  exact hreplace b

/-- **Without a state the attribute goes again.** -/
theorem Seats.startStateTag_none (ha : isStateName a = true) (selfClosing : Bool) :
    startStateTag (.ofStart selfClosing) none
        ((u.rewrite (.set Word.currentState a)).text selfClosing) =
      (u.rewrite (.drop (· = Word.currentState))).text selfClosing := by
  obtain ⟨slot, hfind, -, hremove⟩ := h.exists_slot ha selfClosing
  unfold startStateTag
  rw [hfind]
  exact hremove

/-- The root says nothing else with a state. -/
theorem Seats.sameBut_set (ht : t.Sound) (ha : isStateName a = true) :
    SameBut Word.currentState t.content (u.rewrite (.set Word.currentState a)).content := by
  refine ht.sameBut (h.sound_set ha) h.name ?_
  rw [rewrite_set_drop]
  exact h.others

theorem Seats.sameBut_drop (ht : t.Sound) :
    SameBut Word.currentState t.content (u.rewrite (.drop (· = Word.currentState))).content := by
  refine ht.sameBut (h.sound.drop _) h.name ?_
  rw [rewrite_drop_drop]
  exact h.others

/-- What is read where the state is written. -/
theorem Seats.valueIn?_set (ha : isStateName a = true) :
    valueIn? Word.currentState (entriesOf (u.rewrite (.set Word.currentState a)).content) =
      some a := by
  have hsound := h.sound_set ha
  have hread := Markup.valueIn?_elementOf hsound.tidy hsound.readable Word.currentState
  rw [value?_set_self h.seated, Option.bind_some,
    unescape_of_not_mem (not_mem_of_isStateName ha rfl)] at hread
  exact hread

end

end StartTag

end SkinMarkup
