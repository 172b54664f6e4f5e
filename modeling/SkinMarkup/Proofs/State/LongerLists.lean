import SkinMarkup.Proofs.State.Lists
import SkinMarkup.Proofs.TagText.Edits
import SkinMarkup.State.Create

/-!
# Longer lists in start tags

A state is added to a list in a tag's text by replacing the list
(`Tidy.extend_text`). The list on the root is added to the tag if it is not there
(`Tidy.declare_text`). Every list that could be found before can be found
afterwards.
-/

namespace SkinMarkup

/-! ## Longer lists -/

section

variable {word value state : Text} {states : List Text}

theorem Avoids.of_part {part : Text} (h : Avoids word value) (hpart : part <:+: value) :
    Avoids word part :=
  fun hwithin => h (hwithin.trans (hpart.map asSpace))

theorem avoids_of_isStateName (h : isStateName state = true) (word : Text) : Avoids word state := by
  intro hwithin
  rw [flatten_eq_map, gentle_asSpace.map_name (nameChars_of_isStateName h)] at hwithin
  exact not_mem_of_isStateName h (by rfl : isStateChar ' ' = false) (hwithin.subset List.mem_cons_self)

theorem flatten_joinWith (states : List Text) :
    ValueSlot.flatten (joinWith ',' states) = joinWith ',' (states.map ValueSlot.flatten) := by
  induction states with
  | nil => rfl
  | cons first others ih =>
    cases others with
    | nil => simp only [List.map_cons, List.map_nil, joinWith_singleton]
    | cons second others =>
      rw [List.map_cons] at ih
      rw [List.map_cons, List.map_cons, joinWith_cons_cons, joinWith_cons_cons, ← ih]
      simp [ValueSlot.flatten, isLayout]

/-- A pattern without a comma that is in a list is in one of its entries. -/
theorem exists_infix_of_render {pattern : Text} (hcomma : ',' ∉ pattern) (hne : pattern ≠ [])
    (h : pattern <:+: ValueSlot.flatten (StateList.render states)) :
    ∃ e ∈ states, pattern <:+: ValueSlot.flatten e := by
  rw [StateList.render, flatten_joinWith] at h
  obtain ⟨_, he, hwithin⟩ := isInfix_joinWith hcomma hne h
  obtain ⟨s, hs, rfl⟩ := List.mem_map.mp he
  exact ⟨s, hs, hwithin⟩

/-- What no entry mentions is not mentioned in the list. -/
theorem Avoids.render (hword : ',' ∉ word) (h : ∀ e ∈ states, Avoids word e) :
    Avoids word (StateList.render states) := by
  intro hwithin
  obtain ⟨e, he, hwithin⟩ :=
    exists_infix_of_render (by simpa using hword) (List.cons_ne_nil _ _) hwithin
  exact h e he hwithin

/-- A character that is in no list with more states either. -/
theorem not_mem_render {c : Char} (hc : c ≠ ',') (h : ∀ e ∈ states, c ∉ e) :
    c ∉ StateList.render states := by
  intro hmem
  obtain ⟨e, he, hce⟩ := StateList.mem_render hmem hc
  exact h e he hce

theorem ListValue.render (h : ∀ e ∈ states, ListValue e) : ListValue (StateList.render states) :=
  ⟨not_mem_render (by decide) fun e he => (h e he).equals,
    not_mem_render (by decide) fun e he => (h e he).double,
    not_mem_render (by decide) fun e he => (h e he).single⟩

theorem ListValue.of_part {part : Text} (h : ListValue value) (hpart : part <:+: value) :
    ListValue part :=
  ⟨fun hmem => h.equals (hpart.subset hmem), fun hmem => h.double (hpart.subset hmem),
    fun hmem => h.single (hpart.subset hmem)⟩

theorem listValue_of_isStateName (h : isStateName state = true) : ListValue state :=
  ⟨not_mem_of_isStateName h rfl, not_mem_of_isStateName h rfl, not_mem_of_isStateName h rfl⟩

/-- The entries of a list and a new state have whatever the list and the state
have. -/
theorem forall_mem_concat {P : Text → Prop} (hpart : ∀ part, part <:+: value → P part)
    (hstate : P state) : ∀ e ∈ StateList.entries value ++ [state], P e := by
  intro e he
  rcases List.mem_append.mp he with he | he
  · exact hpart e (StateList.mem_entries he).2
  · rw [List.mem_singleton.mp he]
    exact hstate

/-- The entries of a list with a new state. -/
theorem StateList.entries_concat (hstate : isStateName state = true) (value : Text) :
    StateList.entries (StateList.render (StateList.entries value ++ [state])) =
      StateList.entries value ++ [state] := by
  refine StateList.entries_render fun e he => ?_
  rcases List.mem_append.mp he with he | he
  · exact (StateList.mem_entries he).1
  · rw [List.mem_singleton.mp he]
    exact isEntry_of_isStateName hstate

theorem StateList.entries_of_isStateName (hstate : isStateName state = true) :
    StateList.entries state = [state] := by
  have hentries := StateList.entries_concat hstate []
  rwa [show StateList.entries [] = [] from rfl, List.nil_append, StateList.render,
    joinWith_singleton] at hentries

end

/-! ## Extending a list -/

/-- Adds a state to the list `name`, if `condition` holds of it. -/
def ValueEdit.extend (name state : Text) (condition : List Text → Bool) : ValueEdit :=
  fun other value =>
    some (if other = name ∧ condition (StateList.entries value) = true then
      StateList.render (StateList.entries value ++ [state])
    else value)

/-- An attribute name that a slot can be looked up by. -/
structure IsWord (name : Text) : Prop where
  nonempty : name ≠ []
  chars : NameChars name
  dot : '.' ∉ name

theorem IsWord.comma {name : Text} (h : IsWord name) : ',' ∉ name := by
  intro hmem
  exact ne_of_isNameChar (h.chars ',' hmem) (by decide) rfl

theorem isWord_includeIn : IsWord Word.includeIn :=
  ⟨by decide, List.all_eq_true.mp (by decide), by decide⟩

theorem isWord_excludeFrom : IsWord Word.excludeFrom :=
  ⟨by decide, List.all_eq_true.mp (by decide), by decide⟩

theorem isWord_states : IsWord Word.states :=
  ⟨by decide, List.all_eq_true.mp (by decide), by decide⟩

theorem isWord_name : IsWord Word.name :=
  ⟨by decide, List.all_eq_true.mp (by decide), by decide⟩

theorem isWord_currentState : IsWord Word.currentState :=
  ⟨by decide, List.all_eq_true.mp (by decide), by decide⟩

theorem IsWord.quote {name : Text} (h : IsWord name) {q : Char} (hq : q = '"' ∨ q = '\'') :
    q ∉ name := by
  intro hmem
  exact Bool.false_ne_true ((quote_signs hq).1.symm.trans (h.chars q hmem))

/-- A pattern does not reach over quotes, which stand before and behind a value within
another one. -/
theorem infix_of_around {pattern a value b : Text}
    (hpattern : ∀ q, q = '"' ∨ q = '\'' → q ∉ pattern)
    (hlast : ∀ c ∈ a.getLast?, c = '"' ∨ c = '\'') (hfirst : ∀ c ∈ b.head?, c = '"' ∨ c = '\'')
    (h : pattern <:+: ValueSlot.flatten (a ++ value ++ b)) :
    pattern <:+: ValueSlot.flatten a ∨ pattern <:+: ValueSlot.flatten value ∨
      pattern <:+: ValueSlot.flatten b := by
  have hsame : ∀ {q : Char}, q = '"' ∨ q = '\'' → asSpace q = q := fun hq =>
    gentle_asSpace.map_sign (by rcases hq with rfl | rfl <;> simp)
  simp only [flatten_eq_map] at h ⊢
  -- Behind the value, then before it: a quote stands at each end, or nothing.
  have hbehind : pattern <:+: value.map asSpace ++ b.map asSpace →
      pattern <:+: value.map asSpace ∨ pattern <:+: b.map asSpace := by
    intro hin
    cases b with
    | nil => exact Or.inl (by simpa using hin)
    | cons q b =>
      have hq := hfirst q rfl
      rw [List.map_cons, hsame hq] at hin ⊢
      exact (isInfix_or_isInfix (hpattern q hq) hin).imp_right
        fun hin => hin.trans (List.suffix_cons q _).isInfix
  rw [List.map_append, List.map_append, List.append_assoc] at h
  rcases List.eq_nil_or_concat' a with rfl | ⟨front, q, rfl⟩
  · exact Or.inr (hbehind h)
  · have hq := hlast q (by simp)
    rw [List.map_append, List.map_singleton, hsame hq, List.append_assoc, List.singleton_append]
      at h
    refine (isInfix_or_isInfix (hpattern q hq) h).imp (fun hin => ?_) hbehind
    exact hin.trans ((List.prefix_append front [q]).isInfix.map asSpace)

/-- A word that is looked up is not in a value that is put into another one. -/
theorem Avoids.around {word a value b : Text} (hword : IsWord word) (ha : Avoids word a)
    (hvalue : Avoids word value) (hb : Avoids word b) (hlast : ∀ c ∈ a.getLast?, c = '"' ∨ c = '\'')
    (hfirst : ∀ c ∈ b.head?, c = '"' ∨ c = '\'') : Avoids word (a ++ value ++ b) := by
  intro hin
  have hpattern : ∀ q, q = '"' ∨ q = '\'' → q ∉ ' ' :: word := fun q hq => by
    simp [hword.quote hq, (quote_signs hq).2]
  exact (infix_of_around hpattern hlast hfirst hin).elim ha (·.elim hvalue hb)

/-! ## What looks like another attribute -/

section

variable {word value state : Text} {states : List Text}

theorem spares_iff_forall {word value : Text} : Spares word value ↔
    ∀ c, c = '=' ∨ c = ' ' → ¬ ' ' :: (word ++ [c]) <:+: ValueSlot.flatten value := by
  constructor
  · rintro h c (rfl | rfl)
    exacts [h.equals, h.blank]
  · exact fun h => ⟨h _ (Or.inl rfl), h _ (Or.inr rfl)⟩

theorem Spares.of_part {part : Text} (h : Spares word value) (hpart : part <:+: value) :
    Spares word part :=
  ⟨fun hwithin => h.equals (hwithin.trans (hpart.map asSpace)),
    fun hwithin => h.blank (hwithin.trans (hpart.map asSpace))⟩

theorem spares_nil (word : Text) : Spares word [] :=
  spares_iff_forall.mpr fun _ _ hwithin => by cases List.infix_nil.mp hwithin

theorem spares_of_isStateName (h : isStateName state = true) (word : Text) : Spares word state :=
  (avoids_of_isStateName h word).spares

/-- What looks like an attribute in no entry does not in the list. -/
theorem Spares.render (hword : IsWord word) (h : ∀ e ∈ states, Spares word e) :
    Spares word (StateList.render states) := by
  refine spares_iff_forall.mpr fun c hc hwithin => ?_
  obtain ⟨e, he, hwithin⟩ := exists_infix_of_render (by rcases hc with rfl | rfl <;> simp [hword.comma])
    (List.cons_ne_nil _ _) hwithin
  exact spares_iff_forall.mp (h e he) c hc hwithin

/-- What looks like an attribute does not reach over quotes. -/
theorem Spares.around {a b : Text} (hword : IsWord word) (ha : Spares word a)
    (hvalue : Spares word value) (hb : Spares word b) (hlast : ∀ c ∈ a.getLast?, c = '"' ∨ c = '\'')
    (hfirst : ∀ c ∈ b.head?, c = '"' ∨ c = '\'') : Spares word (a ++ value ++ b) := by
  refine spares_iff_forall.mpr fun c hc hin => ?_
  have hpattern : ∀ q, q = '"' ∨ q = '\'' → q ∉ ' ' :: (word ++ [c]) := by
    rintro q hq
    have hother : q ≠ c := by rcases hq with rfl | rfl <;> rcases hc with rfl | rfl <;> decide
    simp [hword.quote hq, (quote_signs hq).2, hother]
  rcases infix_of_around hpattern hlast hfirst hin with hin | hin | hin
  exacts [spares_iff_forall.mp ha c hc hin, spares_iff_forall.mp hvalue c hc hin,
    spares_iff_forall.mp hb c hc hin]

end

namespace StartTag

variable {t : StartTag} {name state : Text} {condition : List Text → Bool}

/-- The value that a list gets, or the old one. -/
theorem extend_eq_some {name state other value value' : Text} {condition : List Text → Bool}
    (h : ValueEdit.extend name state condition other value = some value') :
    value' = value ∨
      other = name ∧ value' = StateList.render (StateList.entries value ++ [state]) := by
  rw [ValueEdit.extend, Option.some.injEq] at h
  split at h
  · next hcond => exact Or.inr ⟨hcond.1, h.symm⟩
  · exact Or.inl h.symm

theorem Clear.listValue_extend (h : t.Clear name) (hstate : isStateName state = true) {p : WrittenPiece}
    (hp : p ∈ t.pieces) (hname : p.name = name) :
    ListValue (StateList.render (StateList.entries p.value ++ [state])) :=
  ListValue.render (forall_mem_concat (fun _ => (h.value p hp hname).of_part)
    (listValue_of_isStateName hstate))

theorem Clear.avoids_extend {word : Text} (h : t.Clear word) (hword : IsWord word)
    (hstate : isStateName state = true) {p : WrittenPiece} (hp : p ∈ t.pieces) :
    Avoids word (StateList.render (StateList.entries p.value ++ [state])) :=
  Avoids.render hword.comma (forall_mem_concat (fun _ => (h.avoids p hp).of_part)
    (avoids_of_isStateName hstate word))

theorem Tidy.extend (h : t.Tidy) (hclear : t.Clear name) (hstate : isStateName state = true) :
    (t.rewrite (.extend name state condition)).Tidy := by
  refine h.rewrite fun p hp value hvalue => ?_
  rcases extend_eq_some hvalue with heq | ⟨hname, rfl⟩
  · exact Or.inl heq
  · exact Or.inr (hclear.listValue_extend hstate hp hname)

theorem Clear.extend {word : Text} (h : t.Clear word) (hword : IsWord word) (hclear : t.Clear name)
    (hstate : isStateName state = true) : (t.rewrite (.extend name state condition)).Clear word := by
  refine h.rewrite fun p hp value hvalue => ?_
  rcases extend_eq_some hvalue with heq | ⟨hname, rfl⟩
  · exact Or.inl heq
  · exact Or.inr ⟨h.avoids_extend hword hstate hp, hclear.listValue_extend hstate hp hname⟩

/-- **Extending a list in a tag's text extends it in the tag.** -/
theorem Tidy.extend_text (h : t.Tidy) (hclear : t.Clear name) (hname : IsWord name)
    (hnew : ∀ p ∈ t.pieces, p.name = name → state ∉ StateList.entries p.value)
    (condition : List Text → Bool) (selfClosing : Bool) :
    editOr (StateList.extend name state condition) (t.text selfClosing) =
      (t.rewrite (.extend name state condition)).text selfClosing := by
  cases hvalue : t.value? name with
  | none =>
    have hnone := h.find?_of_value?_eq_none hclear hname.nonempty hname.chars hvalue selfClosing
    rw [rewrite_eq_self]
    · simp [editOr, StateList.extend, hnone]
    · intro p hp
      have hne : p.name ≠ name := fun heq =>
        not_mem_of_value? hvalue (heq ▸ List.mem_map_of_mem hp)
      simp [ValueEdit.extend, hne]
  | some value =>
    obtain ⟨slot, hfind, hslot, hreplace, -⟩ := h.exists_slot hclear hvalue selfClosing
    have hmem : ∀ p ∈ t.pieces, p.name = name → p.value = value := by
      rintro p hp rfl
      have := h.value?_of_mem hp
      rw [hvalue] at this
      cases this
      rfl
    obtain ⟨l, p, r, hsplit, hp, hpvalue⟩ := exists_split hvalue
    have hfresh : state ∉ StateList.entries value :=
      hpvalue ▸ hnew p (mem_of_split hsplit).1 hp
    cases hcond : condition (StateList.entries value) with
    | false =>
      rw [rewrite_eq_self]
      · simp [editOr, StateList.extend, hfind, hslot, hcond]
      · intro x hx
        rw [ValueEdit.extend, if_neg]
        rintro ⟨hxname, hxcond⟩
        rw [hmem x hx hxname, hcond] at hxcond
        cases hxcond
    | true =>
      have hrewrite : t.rewrite (.extend name state condition) =
          t.rewrite (.set name (StateList.render (StateList.entries value ++ [state]))) := by
        refine rewrite_congr fun x hx => ?_
        by_cases hxname : x.name = name
        · simp [ValueEdit.extend, ValueEdit.set, hxname, hmem x hx hxname, hcond]
        · simp [ValueEdit.extend, ValueEdit.set, hxname]
      rw [hrewrite, ← hreplace]
      simp [editOr, StateList.extend, hfind, hslot, hcond, hfresh]

end StartTag

/-! ## The list on the root -/

/-- The attributes of a root with one more state. -/
def declaredEntries (state : Text) (entries : List (Text × Text)) : List (Text × Text) :=
  if entries.any fun (name, _) => name = Word.states then
    entries.map fun (name, value) =>
      (name, if name = Word.states then StateList.render (StateList.entries value ++ [state])
        else value)
  else
    entries ++ [(Word.states, state)]

namespace StartTag

variable {t : StartTag} {state : Text}

/-- The start tag of a root with one more state. -/
def declared (state : Text) (t : StartTag) : StartTag :=
  if (t.value? Word.states).isSome then
    t.rewrite (.extend Word.states state fun _ => true)
  else
    t.append [.usual Word.states state]

theorem declared_of_none (h : t.value? Word.states = none) (state : Text) :
    t.declared state = t.append [.usual Word.states state] := by
  rw [declared, h]
  rfl

theorem declared_of_some {value : Text} (h : t.value? Word.states = some value) (state : Text) :
    t.declared state = t.rewrite (.extend Word.states state fun _ => true) := by
  rw [declared, h]
  rfl

/-- **Declaring a state in a tag's text declares it in the tag.** -/
theorem Tidy.declare_text (h : t.Tidy) (hclear : t.Clear Word.states)
    (hnew : ∀ p ∈ t.pieces, p.name = Word.states → state ∉ StateList.entries p.value)
    (hend : t.pieces = [] → t.Solid) (selfClosing : Bool) :
    (match ValueSlot.find? Word.states (t.text selfClosing) with
      | some _ => some ((StateList.extend Word.states state (fun _ => true)
          (t.text selfClosing)).getD (t.text selfClosing))
      | none => some (insertAttribute (.ofStart selfClosing) Word.states
          state (t.text selfClosing))) = some ((t.declared state).text selfClosing) := by
  cases hvalue : t.value? Word.states with
  | none =>
    have hnone := h.find?_of_value?_eq_none hclear isWord_states.nonempty isWord_states.chars hvalue
      selfClosing
    have hinsert := h.regular.insertRaw_text hend [.usual Word.states state] selfClosing
    rw [hnone, declared_of_none hvalue, ← hinsert, insertAttribute]
    simp [WrittenPiece.usual, WrittenPiece.source, WrittenPiece.extent, WrittenPiece.quoted,
      attributeText]
  | some value =>
    obtain ⟨slot, hfind, -⟩ := h.exists_slot hclear hvalue selfClosing
    rw [hfind, declared_of_some hvalue,
      ← h.extend_text hclear isWord_states hnew (fun _ => true) selfClosing]
    rfl

theorem regular_states (hstate : isStateName state = true) :
    (WrittenPiece.usual Word.states state).Regular :=
  WrittenPiece.regular_usual (by decide) (listValue_of_isStateName hstate).double

theorem Tidy.declared (h : t.Tidy) (hclear : t.Clear Word.states) (hstate : isStateName state = true) :
    (t.declared state).Tidy := by
  cases hvalue : t.value? Word.states with
  | some value =>
    rw [declared_of_some hvalue]
    exact h.extend hclear hstate
  | none =>
    rw [declared_of_none hvalue]
    refine h.append ?_ (by simp) ?_
    · intro p hp
      rw [List.mem_singleton.mp hp]
      exact ⟨regular_states hstate, isWord_states.chars, List.cons_ne_nil _ _⟩
    · intro p hp
      rw [List.mem_singleton.mp hp]
      exact not_mem_of_value? hvalue

theorem Clear.declared {word : Text} (h : t.Clear word) (hword : IsWord word)
    (hclear : t.Clear Word.states) (hstate : isStateName state = true) :
    (t.declared state).Clear word := by
  cases hvalue : t.value? Word.states with
  | some value =>
    rw [declared_of_some hvalue]
    exact h.extend hword hclear hstate
  | none =>
    rw [declared_of_none hvalue]
    refine h.append (fun p hp => ?_) fun p hp _ => ?_
    · rw [List.mem_singleton.mp hp]
      exact avoids_of_isStateName hstate word
    · rw [List.mem_singleton.mp hp]
      exact listValue_of_isStateName hstate

theorem Regular.names_eq (h : t.Regular) {entries : List (Text × Text)}
    (hentries : entriesOf? t.content = some entries) :
    entries.map Prod.fst = t.pieces.map (·.name) := by
  rw [h.entriesOf?_content] at hentries
  rw [map_fst_of_mapM_readEntry hentries, List.map_map]
  rfl

/-- What is read in a tag is written in one of its attributes. -/
theorem Regular.exists_piece (h : t.Regular) {entries : List (Text × Text)} {e : Text × Text}
    (hentries : entriesOf? t.content = some entries) (he : e ∈ entries) :
    ∃ p ∈ t.pieces, p.name = e.1 ∧ unescape p.value = .ok e.2 := by
  rw [h.entriesOf?_content] at hentries
  generalize t.pieces = pieces at hentries
  induction pieces generalizing entries with
  | nil =>
    cases hentries
    cases he
  | cons p pieces ih =>
    obtain ⟨first, others, hfirst, hothers, rfl⟩ := mapM_readEntry_cons.mp hentries
    rcases List.mem_cons.mp he with rfl | he
    · obtain ⟨hname, hread⟩ := readEntry_eq_some.mp hfirst
      exact ⟨p, List.mem_cons_self, hname.symm, hread⟩
    · obtain ⟨q, hq, hpiece⟩ := ih he hothers
      exact ⟨q, List.mem_cons_of_mem p hq, hpiece⟩

/-- **What is read from a root with one more state.** -/
theorem Tidy.entriesOf?_declared (h : t.Tidy) (hclear : t.Clear Word.states)
    (hstate : isStateName state = true) {entries : List (Text × Text)}
    (hentries : entriesOf? t.content = some entries)
    (hplain : ∀ p ∈ t.pieces, p.name = Word.states → '&' ∉ p.value) :
    entriesOf? (t.declared state).content = some (declaredEntries state entries) := by
  have htidy := h.declared hclear hstate
  have hhas : (entries.any fun (name, _) => decide (name = Word.states)) = true ↔
      Word.states ∈ t.pieces.map (·.name) := by
    rw [← h.regular.names_eq hentries, List.any_eq_true, List.mem_map]
    simp only [decide_eq_true_eq]
  cases hvalue : t.value? Word.states with
  | some value =>
    rw [declared_of_some hvalue] at htidy ⊢
    have hmem : Word.states ∈ t.pieces.map (·.name) := by
      obtain ⟨l, p, r, hsplit, hname, -⟩ := exists_split hvalue
      exact hname ▸ List.mem_map_of_mem (mem_of_split hsplit).1
    have hreads : ∀ p ∈ t.pieces,
        (ValueEdit.extend Word.states state fun _ => true).Reads p.name p.value := by
      intro p hp
      by_cases hname : p.name = Word.states
      · refine ValueEdit.reads_of_not_mem (hplain p hp hname) fun value' hvalue' => ?_
        rcases extend_eq_some hvalue' with rfl | ⟨-, rfl⟩
        · exact hplain p hp hname
        · exact not_mem_render (by decide) (forall_mem_concat (fun _ hpart hmem =>
            hplain p hp hname (hpart.subset hmem)) (not_mem_of_isStateName hstate rfl))
      · exact ValueEdit.reads_of_eq fun value => by simp [ValueEdit.extend, hname]
    rw [h.regular.entriesOf?_rewrite htidy.regular hentries hreads, declaredEntries,
      if_pos (hhas.mpr hmem), ← List.filterMap_eq_map]
    congr 2
    funext ⟨name, value⟩
    simp [ValueEdit.entry, ValueEdit.extend]
  | none =>
    rw [declared_of_none hvalue] at htidy ⊢
    rw [declaredEntries, if_neg (fun hany => not_mem_of_value? hvalue (hhas.mp hany))]
    refine h.regular.entriesOf?_append htidy.regular hentries ?_
    rw [List.map_singleton, mapM_readEntry_cons]
    refine ⟨(Word.states, state), [], readEntry_eq_some.mpr ⟨rfl, ?_⟩, rfl, rfl⟩
    exact unescape_of_not_mem (not_mem_of_isStateName hstate rfl)

end StartTag

end SkinMarkup
