import SkinMarkup.Proofs.State.ShorterLists
import SkinMarkup.Proofs.State.Successors
import SkinMarkup.Proofs.TagText.Within

/-!
# Start tags with a renamed state

Renaming a state in a start tag respells it in the values that name nothing else,
replaces it in both lists of states, and gives the attributes for it other names.
The tag can be edited again, and both lists have the new name where they had the
old one: `Ready.exists_renamed`. Where a tag declares the state, only the value
that names it changes: `Ready.exists_redeclared`.
-/

namespace SkinMarkup

/-! ## Names in lists -/

/-- A state by its new name. -/
def renamed (old new state : Text) : Text :=
  if state = old then new else state

theorem renamed_renamed (old new state : Text) :
    renamed old new (renamed old new state) = renamed old new state := by
  unfold renamed
  by_cases h : state = old <;> by_cases hnew : new = old <;> simp [h, hnew]

/-- A list of states has the new name of a state instead of the old one. -/
def ListRenamed (old new : Text) (value value' : Option Text) : Prop :=
  value'.map StateList.entries =
    value.map fun v => (StateList.entries v).map (renamed old new)

/-- A list of states is as it was, or it has the new name of a state. -/
def ListTouched (old new : Text) (value value' : Option Text) : Prop :=
  value'.map StateList.entries = value.map StateList.entries ∨ ListRenamed old new value value'

section

variable {old new : Text} {value value' value'' : Option Text}

theorem ListTouched.refl (old new : Text) (value : Option Text) : ListTouched old new value value :=
  Or.inl rfl

theorem ListTouched.renamed (h : ListTouched old new value value')
    (h' : ListRenamed old new value' value'') : ListRenamed old new value value'' := by
  have hmap : ∀ v : Option Text,
      (v.map fun v => (StateList.entries v).map (SkinMarkup.renamed old new)) =
        (v.map StateList.entries).map (List.map (SkinMarkup.renamed old new)) := by
    intro v
    rw [Option.map_map]
    rfl
  rw [ListRenamed, hmap] at h' ⊢
  rcases h with h | h
  · rw [h', h]
  · rw [ListRenamed, hmap] at h
    rw [h', h, Option.map_map]
    congr 1
    funext states
    simp [renamed_renamed]

end

/-- A value that is nothing but the name of a state is a list of it. -/
theorem StateList.entries_of_trim {state v : Text} (hstate : isStateName state = true)
    (h : trim v = state) : StateList.entries v = [state] := by
  have hcomma : ∀ p ∈ [v], ',' ∉ p := by
    rintro p hp hmem
    rw [List.mem_singleton.mp hp] at hmem
    exact StartTag.ne_of_mem_of_trim hstate h hmem rfl rfl rfl
  have hparts := partsAt_joinWith hcomma (List.cons_ne_nil v [])
  rw [joinWith_singleton] at hparts
  rw [entries, hparts, List.map_singleton, h]
  simp [ne_nil_of_isStateName hstate]

/-! ## A value that names a state -/

namespace StartTag

variable {t t' : StartTag} {p : WrittenPiece} {l r : List WrittenPiece} {old new a v b word : Text}
  {selfClosing : Bool}

/-- A word that is looked up does not reach over the ends of a name that was
respelled. -/
theorem Respelled.avoids (h : Respelled old new t t' l p r a v b) (hnew : isStateName new = true)
    (hword : IsWord word) (havoids : Avoids word p.value) : Avoids word (a ++ new ++ b) := by
  have hleft : a <:+: p.value := h.value ▸ ⟨[], v ++ b, by simp⟩
  have hright : b <:+: p.value := h.value ▸ ⟨a ++ v, [], by simp⟩
  exact Avoids.around hword (havoids.of_part hleft) (avoids_of_isStateName hnew word)
    (havoids.of_part hright) h.last h.first

/-- A list is respelled as a whole. -/
theorem Respelled.eq_nil (h : Respelled old new t t' l p r a v b)
    (hlist : isListText p.value = true) : a = [] ∧ b = [] := by
  have hlist := (isListText_iff.mp hlist).2
  have hnone : ∀ {q : Char}, q = '"' ∨ q = '\'' → q ∉ p.value := by
    rintro q (rfl | rfl)
    · exact hlist.double
    · exact hlist.single
  rw [h.value] at hnone
  constructor
  · rcases List.eq_nil_or_concat' a with rfl | ⟨front, q, rfl⟩
    · rfl
    · exact absurd (by simp) (hnone (h.last q (by simp)))
  · cases b with
    | nil => rfl
    | cons q b => exact absurd (by simp) (hnone (h.first q rfl))

section

variable (h : Respelled old new t t' l p r a v b) (ht : t.Ready) (hold : isStateName old = true)
  (hnew : isStateName new = true)

include h ht hold hnew

/-- The attribute in which a name was respelled. -/
theorem Respelled.ready_piece : WrittenPiece.Ready { p with value := a ++ new ++ b } := by
  have hp : p.Ready := ht.piece (mem_of_split h.split).1
  have hv : ∀ {e : Char}, isBlank e = false → isStateChar e = false → e ∉ v :=
    fun hblank he hmem => ne_of_mem_of_trim hold h.spelled hmem hblank he rfl
  obtain ⟨q, hquote, hq, hvalue⟩ := hp.regular.quoted
  have hback := hp.backslash
  rw [h.value] at hvalue
  simp only [mem_source, h.value, List.mem_append, not_or] at hback
  simp only [List.mem_append, not_or] at hvalue
  have hsign : isStateChar q = false := by rcases hq with rfl | rfl <;> rfl
  constructor
  · refine ⟨hp.regular.skipped, hp.regular.lead, hp.regular.name, hp.regular.assign, q, hquote, hq, ?_⟩
    simp [hvalue, not_mem_of_isStateName hnew hsign]
  · exact hp.name
  · exact hp.spaced
  · simp only [mem_source, List.mem_append, not_or]
    exact ⟨hback.1, hback.2.1, hback.2.2.1, hback.2.2.2.1, hback.2.2.2.2.1,
      ⟨hback.2.2.2.2.2.1.1, not_mem_of_isStateName hnew rfl⟩, hback.2.2.2.2.2.2⟩
  · obtain ⟨read, hread⟩ := hp.readable
    rw [h.value] at hread
    exact Unescapable.replace ⟨read, hread⟩ h.last h.first fun _ =>
      unescapable_of_not_mem (not_mem_of_isStateName hnew rfl)
  · exact fun word hword => h.avoids hnew (isWord_of_mem_lists hword) (hp.avoids word hword)
  · intro hlist
    obtain ⟨rfl, rfl⟩ := h.eq_nil (hp.list hlist)
    simpa using (quiet_of_isStateName hnew).list

/-- **A start tag in which a name was respelled can be edited again.** -/
theorem Respelled.successor : Successor t t' := by
  have hnames : (l ++ { p with value := a ++ new ++ b } :: r).map (·.name) =
      t.pieces.map (·.name) := by
    rw [h.split]
    simp
  have hpiece := h.ready_piece ht hold hnew
  obtain ⟨hmem, hl, hr⟩ := mem_of_split h.split
  rw [h.eq]
  refine ht.successor_of_pieces (fun x hx => ?_) (hnames ▸ ht.listed.tidy.regular.nodup)
    fun hdeclaring x hx hname => ?_
  · rcases List.mem_append.mp hx with hx | hx
    · exact ht.piece (hl hx)
    · rcases List.mem_cons.mp hx with rfl | hx
      · exact hpiece
      · exact ht.piece (hr hx)
  · rcases List.mem_append.mp hx with hx | hx
    · exact hdeclaring x (hl hx) hname
    · rcases List.mem_cons.mp hx with rfl | hx
      · obtain ⟨rfl, rfl⟩ := h.eq_nil (hdeclaring p hmem hname)
        simpa using (quiet_of_isStateName hnew).list
      · exact hdeclaring x (hr hx) hname

omit ht hold hnew in
/-- The value in which a name was respelled, and the others as they were. -/
theorem Respelled.value?_eq (word : Text) :
    t'.value? word = t.value? word ∨
      p.name = word ∧ t.value? word = some (a ++ v ++ b) ∧ t'.value? word = some (a ++ new ++ b) := by
  by_cases hname : p.name = word
  · cases hfound : l.find? (·.name = word) with
    | some x =>
      refine Or.inl ?_
      rw [value?, value?, h.eq, h.split, List.find?_append, List.find?_append, hfound]
      rfl
    | none =>
      refine Or.inr ⟨hname, ?_, ?_⟩
      · rw [value?, h.split, List.find?_append, hfound, List.find?_cons_of_pos (by simpa using hname)]
        simp [h.value]
      · rw [value?, h.eq, List.find?_append, hfound, List.find?_cons_of_pos (by simpa using hname)]
        rfl
  · refine Or.inl ?_
    rw [value?, value?, h.eq, h.split, List.find?_append, List.find?_append,
      List.find?_cons_of_neg (by simpa using hname), List.find?_cons_of_neg (by simpa using hname)]

theorem Respelled.listTouched (hlist : Word.isStateList word = true) :
    ListTouched old new (t.value? word) (t'.value? word) := by
  rcases h.value?_eq word with heq | ⟨rfl, hbefore, hafter⟩
  · exact Or.inl (by rw [heq])
  · obtain ⟨rfl, rfl⟩ := h.eq_nil ((ht.piece (mem_of_split h.split).1).list hlist)
    simp only [List.nil_append, List.append_nil] at hbefore hafter
    refine Or.inr ?_
    rw [ListRenamed, hbefore, hafter, Option.map_some, Option.map_some,
      StateList.entries_of_trim hold h.spelled,
      StateList.entries_of_trim hnew (trim_of_trimmed (isEntry_of_isStateName hnew).trimmed)]
    simp [renamed]

end

end StartTag

/-! ## Values that change and stay -/

namespace StartTag

variable {f : ValueEdit} {g : Text → Text → Text}

/-- An edit that drops nothing maps the value of every attribute. -/
theorem value?_rewrite_map (hf : ∀ name value, f name value = some (g name value)) (word : Text)
    (t : StartTag) : (t.rewrite f).value? word = (t.value? word).map (g word) := by
  have hpieces : t.pieces.filterMap (rewritePiece f) =
      t.pieces.map fun p => { p with value := g p.name p.value } := by
    rw [← List.filterMap_eq_map]
    refine List.filterMap_congr fun p _ => ?_
    rw [rewritePiece, hf]
    rfl
  rw [value?, value?, rewrite, hpieces, List.find?_map, Option.map_map, Option.map_map]
  refine Option.map_congr fun p hp => ?_
  have hname : p.name = word := by simpa using List.find?_some hp
  simp [hname]

theorem names_rewrite (hf : ∀ name value, f name value = some (g name value)) (t : StartTag) :
    (t.rewrite f).pieces.map (·.name) = t.pieces.map (·.name) := by
  rw [rewrite, List.map_filterMap, ← List.filterMap_eq_map]
  refine List.filterMap_congr fun p _ => ?_
  rw [rewritePiece, hf]
  rfl

end StartTag

/-! ## A list of states -/

/-- Gives a state another name in the list `name`. -/
def ValueEdit.relist (name old new : Text) : ValueEdit := fun other value =>
  some (if other = name ∧ (StateList.entries value).contains old = true then
    StateList.render ((StateList.entries value).map (renamed old new))
  else value)

namespace StartTag

variable {t t' : StartTag} {name old new word : Text} {selfClosing : Bool}

/-- The value that a list gets, or the old one. -/
theorem relist_eq_some {other value value' : Text}
    (h : ValueEdit.relist name old new other value = some value') :
    value' = value ∨ other = name ∧
      value' = StateList.render ((StateList.entries value).map (renamed old new)) := by
  rw [ValueEdit.relist, Option.some.injEq] at h
  split at h
  · next hname => exact Or.inr ⟨hname.1, h.symm⟩
  · exact Or.inl h.symm

/-- **Renaming a state in a list in a tag's text renames it in the tag,** if the
list has it. -/
theorem Tidy.rename_text (h : t.Tidy) (hclear : t.Clear name) (hname : IsWord name)
    (old new : Text) (selfClosing : Bool) :
    StateList.rename name old new (t.text selfClosing) =
        some ((t.rewrite (.relist name old new)).text selfClosing) ∨
      StateList.rename name old new (t.text selfClosing) = none ∧
        t.rewrite (.relist name old new) = t := by
  cases hvalue : t.value? name with
  | none =>
    refine Or.inr ⟨?_, rewrite_eq_self fun p hp => ?_⟩
    · rw [StateList.rename, h.find?_of_value?_eq_none hclear hname.nonempty hname.chars hvalue]
      rfl
    · rw [ValueEdit.relist, if_neg]
      rintro ⟨hp', -⟩
      exact not_mem_of_value? hvalue (List.mem_map.mpr ⟨p, hp, hp'⟩)
  | some value =>
    obtain ⟨slot, hfind, hslot, hreplace, -⟩ := h.exists_slot hclear hvalue selfClosing
    have hvalues : ∀ p ∈ t.pieces, p.name = name → p.value = value :=
      fun p hp hp' => h.eq_of_value? hvalue hp hp'
    rw [StateList.rename, hfind]
    simp only [Option.bind_eq_bind, Option.bind_some, hslot]
    by_cases hmem : (StateList.entries value).contains old = true
    · refine Or.inl ?_
      rw [if_pos hmem, hreplace]
      refine congrArg (fun t : StartTag => some (t.text selfClosing)) (rewrite_congr fun p hp => ?_)
      rw [ValueEdit.set, ValueEdit.relist]
      by_cases hp' : p.name = name
      · rw [if_pos hp', if_pos ⟨hp', hvalues p hp hp' ▸ hmem⟩, hvalues p hp hp']
        rfl
      · rw [if_neg hp', if_neg fun hand => hp' hand.1]
    · refine Or.inr ⟨if_neg hmem, rewrite_eq_self fun p hp => ?_⟩
      rw [ValueEdit.relist, if_neg]
      rintro ⟨hp', hin⟩
      exact hmem (hvalues p hp hp' ▸ hin)

theorem Tidy.relist_text (h : t.Tidy) (hclear : t.Clear name) (hname : IsWord name)
    (old new : Text) (selfClosing : Bool) :
    editOr (StateList.rename name old new) (t.text selfClosing) =
      (t.rewrite (.relist name old new)).text selfClosing := by
  rcases h.rename_text hclear hname old new selfClosing with hsome | ⟨hnone, hsame⟩
  · rw [editOr, hsome]
    rfl
  · rw [editOr, hnone, hsame]
    rfl

/-- **A start tag in which a list has a new name can be edited again.** -/
theorem Ready.successor_relist (h : t.Ready) (hnew : isStateName new = true)
    (hlist : ∀ p ∈ t.pieces, p.name = name → isListText p.value = true) (old : Text) :
    Successor t (t.rewrite (.relist name old new)) := by
  refine h.successor_rewrite fun p hp value hvalue => ?_
  rcases relist_eq_some hvalue with rfl | ⟨hname, rfl⟩
  · exact Or.inl rfl
  · refine Or.inr (Quiet.render fun e he => ?_)
    obtain ⟨x, hx, rfl⟩ := List.mem_map.mp he
    have hquiet := ((h.piece hp).quiet (hlist p hp hname)).entries x hx
    unfold renamed
    split
    · exact quiet_of_isStateName hnew
    · exact hquiet

theorem value?_relist (word : Text) (t : StartTag) :
    (t.rewrite (.relist name old new)).value? word =
      (t.value? word).map fun value =>
        if word = name ∧ (StateList.entries value).contains old = true then
        StateList.render ((StateList.entries value).map (renamed old new)) else value :=
  value?_rewrite_map (fun _ _ => rfl) word t

theorem names_relist (t : StartTag) :
    (t.rewrite (.relist name old new)).pieces.map (·.name) = t.pieces.map (·.name) :=
  names_rewrite (fun _ _ => rfl) t

/-- A list in which a state was renamed has its new name. -/
theorem listRenamed_relist (hnew : isStateName new = true) (t : StartTag) (name old : Text) :
    ListRenamed old new (t.value? name) ((t.rewrite (.relist name old new)).value? name) := by
  rw [ListRenamed, value?_relist, Option.map_map]
  congr 1
  funext value
  simp only [Function.comp_apply, true_and]
  split
  · rw [StateList.entries_render]
    intro e he
    obtain ⟨x, hx, rfl⟩ := List.mem_map.mp he
    unfold renamed
    split
    · exact isEntry_of_isStateName hnew
    · exact (StateList.mem_entries hx).1
  · next hmem =>
    conv => lhs; rw [← List.map_id (StateList.entries value)]
    refine List.map_congr_left fun x hx => ?_
    rw [renamed, if_neg]
    · rfl
    · rintro rfl
      exact hmem (List.contains_iff_mem.mpr hx)

theorem value?_relist_of_ne (hword : word ≠ name) (t : StartTag) (old new : Text) :
    (t.rewrite (.relist name old new)).value? word = t.value? word := by
  rw [value?_relist]
  simp [hword]

/-! ## Names of attributes -/

/-- The name of an attribute after a state got another name. -/
def relabel (old new name : Text) : Text :=
  ((stemFor? old name).map (· ++ '.' :: new)).getD name

/-- The tag with other names of the attributes for a state. -/
def relabeled (old new : Text) (t : StartTag) : StartTag :=
  { t with pieces := t.pieces.map fun p => { p with name := relabel old new p.name } }

/-- No attribute for one state is in the way of those for another. -/
def Relabelable (old new : Text) (t : StartTag) : Prop :=
  ∀ stem, stem ≠ [] → stem ++ '.' :: old ∈ t.pieces.map (·.name) →
    stem ++ '.' :: new ∈ t.pieces.map (·.name) → old = new

theorem relabel_cases (old new name : Text) :
    relabel old new name = name ∨
      ∃ stem, stem ≠ [] ∧ name = stem ++ '.' :: old ∧ relabel old new name = stem ++ '.' :: new := by
  rw [relabel]
  cases hstem : stemFor? old name with
  | none => exact Or.inl rfl
  | some stem =>
    obtain ⟨hname, hne⟩ := mem_of_stemFor? hstem
    exact Or.inr ⟨stem, hne, hname, rfl⟩

theorem relabel_of_not_mem {name : Text} (h : '.' ∉ name) (old new : Text) :
    relabel old new name = name := by
  rcases relabel_cases old new name with heq | ⟨stem, -, rfl, -⟩
  · exact heq
  · exact absurd (by simp) h

/-- A name with a dot does not become one without. -/
theorem relabel_eq_iff {name : Text} (hword : '.' ∉ word) : relabel old new name = word ↔ name = word := by
  constructor
  · rintro rfl
    rcases relabel_cases old new name with heq | ⟨stem, -, -, heq⟩
    · exact heq.symm
    · rw [heq] at hword
      exact absurd (by simp) hword
  · rintro rfl
    exact relabel_of_not_mem hword old new

/-- Different names stay different. -/
theorem Relabelable.injOn (h : t.Relabelable old new) :
    ∀ x ∈ t.pieces.map (·.name), ∀ y ∈ t.pieces.map (·.name),
      relabel old new x = relabel old new y → x = y := by
  intro x hx y hy heq
  rcases relabel_cases old new x with hx' | ⟨stem, hne, rfl, hx'⟩
  · rcases relabel_cases old new y with hy' | ⟨stem, hne, rfl, hy'⟩
    · rw [← hx', heq, hy']
    · rw [hx', hy'] at heq
      rw [heq, h stem hne hy (heq ▸ hx)]
  · rcases relabel_cases old new y with hy' | ⟨stem', -, rfl, hy'⟩
    · rw [hx', hy'] at heq
      rw [← heq, h stem hne hx (heq ▸ hy)]
    · rw [hx', hy'] at heq
      rw [List.append_cancel_right heq]

theorem Relabelable.nodup (h : t.Relabelable old new) (hnodup : (t.pieces.map (·.name)).Nodup) :
    ((t.relabeled old new).pieces.map (·.name)).Nodup := by
  have hmap := List.Nodup.map_on h.injOn hnodup
  rw [List.map_map] at hmap
  rw [relabeled, List.map_map]
  exact hmap

theorem Tidy.renameAttributes_text (h : t.Tidy) (old new : Text) (selfClosing : Bool) :
    renameAttributes old new (t.text selfClosing) = (t.relabeled old new).text selfClosing := by
  rw [renameAttributes, h.ofText_text, TagText.renamed, text, content, relabeled]
  simp [List.flatMap_map, relabel]

/-- **A start tag with other names of its attributes can be edited again.** -/
theorem Ready.successor_relabeled (h : t.Ready) (hnew : isStateName new = true)
    (hlabels : t.Relabelable old new) : Successor t (t.relabeled old new) := by
  have hnames : ∀ p ∈ t.pieces, WrittenPiece.Ready { p with name := relabel old new p.name } := by
    intro p hp
    have hready := h.piece hp
    rcases relabel_cases old new p.name with heq | ⟨stem, hne, hname, heq⟩
    · rw [heq]
      exact hready
    · have hchars : NameChars (stem ++ '.' :: new) := by
        intro c hc
        have hold := hready.name c
        rw [hname] at hold
        simp only [List.mem_append, List.mem_cons] at hc hold
        rcases hc with hc | rfl | hc
        · exact hold (Or.inl hc)
        · decide
        · exact nameChars_of_isStateName hnew c hc
      have hback := hready.backslash
      simp only [mem_source, not_or] at hback
      rw [heq]
      refine ⟨⟨hready.regular.skipped, hready.regular.lead, isSafeName_of_nameChars (by simp) hchars,
        hready.regular.assign, hready.regular.quoted⟩, hchars, hready.spaced, ?_, hready.readable,
        hready.avoids, fun hlist => ?_⟩
      · simp only [mem_source, not_or]
        exact ⟨hback.1, hback.2.1, fun hmem => ne_of_isNameChar (hchars _ hmem) (by decide) rfl,
          hback.2.2.2⟩
      · have hnone : stemFor? new (stem ++ '.' :: new) = none := stemFor?_of_isStateList hlist
        rw [stemFor?_append hne] at hnone
        cases hnone
  refine h.successor_of_pieces (fun x hx => ?_) ?_ fun hdeclaring x hx hname => ?_
  · obtain ⟨p, hp, rfl⟩ := List.mem_map.mp hx
    exact hnames p hp
  · exact hlabels.nodup h.listed.tidy.regular.nodup
  · obtain ⟨p, hp, rfl⟩ := List.mem_map.mp hx
    exact hdeclaring p hp ((relabel_eq_iff isWord_states.dot).mp hname)

theorem value?_relabeled (hword : '.' ∉ word) (t : StartTag) :
    (t.relabeled old new).value? word = t.value? word := by
  have hnames : ((fun p : WrittenPiece => decide (p.name = word)) ∘ fun p : WrittenPiece =>
      { p with name := relabel old new p.name }) = fun p => decide (p.name = word) := by
    funext p
    exact decide_eq_decide.mpr (relabel_eq_iff hword)
  rw [value?, value?, relabeled, List.find?_map, hnames, Option.map_map]
  rfl

/-! ## A whole start tag -/

theorem isWord_of_isStateList (h : Word.isStateList word = true) : IsWord word := by
  rw [Word.isStateList, Bool.or_eq_true, beq_iff_eq, beq_iff_eq] at h
  rcases h with rfl | rfl
  · exact isWord_includeIn
  · exact isWord_excludeFrom

section

variable (h : t.Ready) (hold : isStateName old = true) (hnew : isStateName new = true)

include h hold hnew

/-- **A start tag that declares a state is respelled.** -/
theorem Ready.exists_redeclared {tag : Text}
    (hrename : renameValue name old new (t.text selfClosing) = some tag) :
    ∃ t', tag = t'.text selfClosing ∧ Successor t t' ∧ t'.pieces.map (·.name) = t.pieces.map (·.name) ∧
      ∀ word, Word.isStateList word = true →
        ListTouched old new (t.value? word) (t'.value? word) := by
  obtain ⟨t', l, p, r, a, v, b, hrespelled, rfl⟩ := h.listed.tidy.exists_respelled hold hrename
  refine ⟨t', rfl, hrespelled.successor h hold hnew, ?_,
    fun word hword => hrespelled.listTouched h hold hnew hword⟩
  rw [hrespelled.eq, hrespelled.split]
  simp

/-- **Renaming a state in a tag's text renames it in the tag.** -/
theorem Ready.exists_renamed (hlabels : t.Relabelable old new) (selfClosing : Bool) :
    ∃ t', renameInTag old new (t.text selfClosing) = t'.text selfClosing ∧ Successor t t' ∧
      ∀ word, Word.isStateList word = true →
        ListRenamed old new (t.value? word) (t'.value? word) := by
  obtain ⟨t₁, htext, hsuccessor, hnames, hlists⟩ : ∃ t₁ : StartTag,
      editOr (renameValue Word.currentState old new) (t.text selfClosing) = t₁.text selfClosing ∧
      Successor t t₁ ∧ t₁.pieces.map (·.name) = t.pieces.map (·.name) ∧
      ∀ word, Word.isStateList word = true →
        ListTouched old new (t.value? word) (t₁.value? word) := by
    cases hrename : renameValue Word.currentState old new (t.text selfClosing) with
    | none => exact ⟨t, by rw [editOr, hrename]; rfl, h.successor, rfl, fun _ _ => .refl _ _ _⟩
    | some tag =>
      obtain ⟨t₁, rfl, hrest⟩ := h.exists_redeclared hold hnew hrename
      exact ⟨t₁, by rw [editOr, hrename]; rfl, hrest⟩
  have hlist : ∀ {x : StartTag}, x.Ready → ∀ word, Word.isStateList word = true →
      ∀ p ∈ x.pieces, p.name = word → isListText p.value = true := by
    rintro x hx word hword p hp rfl
    exact (hx.piece hp).list hword
  have h₁ := hsuccessor.ready
  have hincluded := h₁.successor_relist hnew (hlist h₁ Word.includeIn rfl) old
  have h₂ := hincluded.ready
  have hexcluded := h₂.successor_relist hnew (hlist h₂ Word.excludeFrom rfl) old
  have h₃ := hexcluded.ready
  have hlabels' : Relabelable old new ((t₁.rewrite (.relist Word.includeIn old new)).rewrite
      (.relist Word.excludeFrom old new)) := by
    unfold Relabelable
    rw [names_relist, names_relist, hnames]
    exact hlabels
  refine ⟨_, ?_, hsuccessor.trans (hincluded.trans (hexcluded.trans
    (h₃.successor_relabeled hnew hlabels'))), fun word hword => ?_⟩
  · rw [renameInTag, htext, h₁.listed.tidy.relist_text h₁.listed.includeIn isWord_includeIn,
      h₂.listed.tidy.relist_text h₂.listed.excludeFrom isWord_excludeFrom,
      h₃.listed.tidy.renameAttributes_text]
  · rw [value?_relabeled (isWord_of_isStateList hword).dot]
    refine (hlists word hword).renamed ?_
    rw [Word.isStateList, Bool.or_eq_true, beq_iff_eq, beq_iff_eq] at hword
    rcases hword with rfl | rfl
    · rw [value?_relist_of_ne (by decide)]
      exact listRenamed_relist hnew t₁ _ old
    · have hrelist := listRenamed_relist hnew (t₁.rewrite (.relist Word.includeIn old new))
        Word.excludeFrom old
      rwa [value?_relist_of_ne (by decide)] at hrelist

end

end StartTag

end SkinMarkup
