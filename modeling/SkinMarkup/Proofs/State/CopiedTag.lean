import Mathlib.Data.List.Basic
import Mathlib.Data.List.Nodup
import SkinMarkup.Proofs.State.LongerLists

/-!
# Start tags with a copied state

A new state that copies another one goes into the lists that have its model, and
it gets the attributes that the model has: `StartTag.copied`. The text edit does
just that in a start tag whose lists can be found (`copyTag_text`).
-/

namespace SkinMarkup

/-! ## A copied state -/

/-- Whether an attribute lists the states of an element. -/
def Word.isStateList (name : Text) : Bool :=
  name == Word.includeIn || name == Word.excludeFrom

/-- Adds a state to the lists that have its model. -/
def ValueEdit.copy (model state : Text) : ValueEdit := fun name value =>
  some (if Word.isStateList name && (StateList.entries value).contains model then
    StateList.render (StateList.entries value ++ [state])
  else value)

/-- An attribute that applies to one state has a dot in its name. -/
theorem mem_of_stemFor? {model name stem : Text} (h : stemFor? model name = some stem) :
    name = stem ++ '.' :: model ∧ stem ≠ [] := by
  rw [stemFor?, Option.filter_eq_some_iff] at h
  exact ⟨before?_eq_some h.1, by simpa using h.2⟩

theorem stemFor?_append {stem : Text} (hne : stem ≠ []) (state : Text) :
    stemFor? state (stem ++ '.' :: state) = some stem := by
  have hbefore : before? ('.' :: state) (stem ++ '.' :: state) = some stem := by
    rw [before?, List.reverse_append, after?_append, Option.map_some, List.reverse_reverse]
  rw [stemFor?, hbefore, Option.filter_some, if_pos (by simpa using hne)]

theorem stemFor?_of_dot {name : Text} (h : '.' ∉ name) (state : Text) :
    stemFor? state name = none := by
  cases hstem : stemFor? state name with
  | none => rfl
  | some stem => exact absurd (by simp [(mem_of_stemFor? hstem).1]) h

theorem stemFor?_of_isStateList {model name : Text} (h : Word.isStateList name = true) :
    stemFor? model name = none := by
  simp only [Word.isStateList, Bool.or_eq_true, beq_iff_eq] at h
  rcases h with rfl | rfl <;> exact stemFor?_of_dot (by decide) model

theorem ValueEdit.copy_of_stemFor? {model state name stem : Text}
    (h : stemFor? model name = some stem) (value : Text) :
    ValueEdit.copy model state name value = some value := by
  cases hlist : Word.isStateList name with
  | true => cases (stemFor?_of_isStateList hlist).symm.trans h
  | false => simp [ValueEdit.copy, hlist]

/-- The attribute for a new state that copies one for its model. -/
def WrittenPiece.copy? (model state : Text) (p : WrittenPiece) : Option WrittenPiece :=
  (stemFor? model p.name).map fun stem =>
    { p with lead := [' '], name := stem ++ '.' :: state, assign := ['='] }

theorem WrittenPiece.copy?_eq_some {model state : Text} {p q : WrittenPiece}
    (h : p.copy? model state = some q) :
    ∃ stem, stem ≠ [] ∧ p.name = stem ++ '.' :: model ∧
      q = { p with lead := [' '], name := stem ++ '.' :: state, assign := ['='] } := by
  obtain ⟨stem, hstem, rfl⟩ := Option.map_eq_some_iff.mp h
  obtain ⟨hname, hne⟩ := mem_of_stemFor? hstem
  exact ⟨stem, hne, hname, rfl⟩

theorem isSafeName_of_nameChars {name : Text} (hne : name ≠ []) (h : NameChars name) :
    isSafeName name = true := by
  refine isSafeName_iff.mpr ⟨hne, fun c hc => isSafeChar_iff.mpr ?_⟩
  have hc := h c hc
  have hother : ∀ e : Char, isNameChar e = false → c ≠ e := fun e he => ne_of_isNameChar hc he
  exact ⟨(plain_of_isNameChar hc).2.1, hother _ (by decide), hother _ (by decide),
    hother _ (by decide), hother _ (by decide), hother _ (by decide), hother _ (by decide)⟩

namespace StartTag

variable {t : StartTag} {model state : Text}

/-- The attributes for a new state. -/
def copies (model state : Text) (t : StartTag) : List WrittenPiece :=
  t.pieces.filterMap (WrittenPiece.copy? model state)

/-- The tag in which a new state copies another one. -/
def copied (model state : Text) (t : StartTag) : StartTag :=
  (t.rewrite (.copy model state)).append (t.copies model state)

theorem mem_copies {q : WrittenPiece} (hq : q ∈ t.copies model state) :
    ∃ p ∈ t.pieces, ∃ stem, stem ≠ [] ∧ p.name = stem ++ '.' :: model ∧
      q = { p with lead := [' '], name := stem ++ '.' :: state, assign := ['='] } := by
  obtain ⟨p, hp, hcopy⟩ := List.mem_filterMap.mp hq
  obtain ⟨stem, hne, hname, rfl⟩ := WrittenPiece.copy?_eq_some hcopy
  exact ⟨p, hp, stem, hne, hname, rfl⟩

theorem nodup_copies (h : (t.pieces.map (·.name)).Nodup) (model state : Text) :
    ((t.copies model state).map (·.name)).Nodup := by
  have hnames : (t.copies model state).map (·.name) = (t.pieces.map (·.name)).filterMap fun name =>
      (stemFor? model name).map (· ++ '.' :: state) := by
    rw [copies, List.map_filterMap, List.filterMap_map]
    refine List.filterMap_congr fun p _ => ?_
    simp only [WrittenPiece.copy?, Function.comp, Option.map_map]
    rfl
  rw [hnames]
  refine List.Nodup.filterMap (fun a b c ha hb => ?_) h
  obtain ⟨stem, hstem, rfl⟩ := Option.map_eq_some_iff.mp ha
  obtain ⟨stem', hstem', heq⟩ := Option.map_eq_some_iff.mp hb
  rw [(mem_of_stemFor? hstem).1, (mem_of_stemFor? hstem').1, List.append_cancel_right heq]

/-- The attributes for a new state that a tag has not got. -/
def missingCopies (model state : Text) (t : StartTag) : List WrittenPiece :=
  (t.copies model state).filter fun q => !t.pieces.any fun p => p.name = q.name

/-- **What is inserted for a new state are the attributes that a tag has not got.** -/
theorem copiedAttributes_eq_missing
    (h : ∀ p ∈ t.pieces, p.skipped = [] ∧ ∃ q, p.quote = some q) (model state : Text) :
    copiedAttributes model state t.pieces =
      (t.missingCopies model state).flatMap WrittenPiece.source := by
  rw [copiedAttributes, missingCopies, copies, List.filter_filterMap,
    List.filterMap_eq_flatMap_toList, List.flatMap_assoc]
  refine List.flatMap_congr fun p hp => ?_
  cases hstem : stemFor? model p.name with
  | none => simp [WrittenPiece.copy?, hstem]
  | some stem =>
    obtain ⟨hskipped, q, hquote⟩ := h p hp
    cases hany : t.pieces.any fun q => decide (q.name = stem ++ '.' :: state) with
    | true => simp [WrittenPiece.copy?, hstem, hany, Option.filter]
    | false =>
      simp [WrittenPiece.copy?, hstem, hany, hquote, Option.filter, WrittenPiece.source,
        WrittenPiece.extent, WrittenPiece.quoted, hskipped]

theorem missingCopies_eq_nil (h : (t.missingCopies model state).flatMap WrittenPiece.source = []) :
    t.missingCopies model state = [] := by
  refine List.eq_nil_iff_forall_not_mem.mpr fun q hq => ?_
  obtain ⟨p, -, stem, -, -, rfl⟩ := mem_copies (List.mem_filter.mp hq).1
  have hsource := List.flatMap_eq_nil_iff.mp h _ hq
  simp [WrittenPiece.source, WrittenPiece.extent] at hsource

theorem nodup_append_missing (h : (t.pieces.map (·.name)).Nodup) (model state : Text) :
    ((t.append (t.missingCopies model state)).pieces.map (·.name)).Nodup := by
  rw [append, List.map_append, List.nodup_append]
  refine ⟨h, (nodup_copies h model state).sublist (List.filter_sublist.map _), ?_⟩
  rintro x hx y hy rfl
  obtain ⟨q, hq, rfl⟩ := List.mem_map.mp hy
  obtain ⟨p, hp, hname⟩ := List.mem_map.mp hx
  have hnew := (List.mem_filter.mp hq).2
  rw [Bool.not_eq_true', List.any_eq_false] at hnew
  exact hnew p hp (by simpa using hname)

/-- A start tag in which the lists of states can be found. -/
structure Listed (t : StartTag) : Prop where
  tidy : t.Tidy
  includeIn : t.Clear Word.includeIn
  excludeFrom : t.Clear Word.excludeFrom

theorem part_of_mem {p : WrittenPiece} (hp : p ∈ t.pieces) :
    p.name <:+: t.content ∧ p.value <:+: t.content := by
  obtain ⟨l, r, hsplit⟩ := List.append_of_mem hp
  constructor
  · refine ⟨t.name ++ (l.flatMap WrittenPiece.source ++ (p.skipped ++ p.lead)),
      p.assign ++ (p.quoted ++ (r.flatMap WrittenPiece.source ++ t.blanks)), ?_⟩
    simp [content, hsplit, WrittenPiece.source, WrittenPiece.extent]
  · refine ⟨t.name ++ (l.flatMap WrittenPiece.source ++ (p.skipped ++ p.lead ++ p.name ++ p.assign ++
      p.quote.toList)), p.quote.toList ++ (r.flatMap WrittenPiece.source ++ t.blanks), ?_⟩
    simp [content, hsplit, WrittenPiece.source, WrittenPiece.extent, WrittenPiece.quoted]

section

variable (hfresh : ¬ state <:+: t.content)

include hfresh

theorem not_mem_entries_of_fresh {p : WrittenPiece} (hp : p ∈ t.pieces) :
    state ∉ StateList.entries p.value :=
  fun hmem => hfresh ((StateList.mem_entries hmem).2.trans (part_of_mem hp).2)

theorem ne_of_fresh {p : WrittenPiece} (hp : p ∈ t.pieces) (stem : Text) :
    p.name ≠ stem ++ '.' :: state := by
  intro heq
  refine hfresh (List.IsInfix.trans ?_ (part_of_mem hp).1)
  exact ⟨stem ++ ['.'], [], by simp [heq]⟩

end

/-- Both lists of states are extended in the same way. -/
theorem rewrite_copy (model state : Text) (t : StartTag) :
    (t.rewrite (.extend Word.excludeFrom state (·.contains model))).rewrite
        (.extend Word.includeIn state (·.contains model)) = t.rewrite (.copy model state) := by
  rw [rewrite_rewrite]
  refine rewrite_congr fun p _ => ?_
  have hne : Word.excludeFrom ≠ Word.includeIn := by decide
  by_cases hexclude : p.name = Word.excludeFrom
  · simp [ValueEdit.extend, ValueEdit.copy, Word.isStateList, hexclude, hne]
  · by_cases hinclude : p.name = Word.includeIn
    · simp [ValueEdit.extend, ValueEdit.copy, Word.isStateList, hinclude, hne.symm]
    · simp [ValueEdit.extend, ValueEdit.copy, Word.isStateList, hexclude, hinclude]

theorem copies_rewrite (model state : Text) (t : StartTag) :
    (t.rewrite (.copy model state)).copies model state = t.copies model state := by
  rw [copies, copies, rewrite, List.filterMap_filterMap]
  refine List.filterMap_congr fun p _ => ?_
  cases hstem : stemFor? model p.name with
  | none => simp [rewritePiece, WrittenPiece.copy?, hstem, ValueEdit.copy]
  | some stem =>
    simp [rewritePiece, WrittenPiece.copy?, hstem, ValueEdit.copy_of_stemFor? hstem]

theorem copiedAttributes_eq {pieces : List WrittenPiece} (hregular : ∀ p ∈ pieces, p.Regular)
    (hnew : ∀ p ∈ pieces, ∀ stem, p.name ≠ stem ++ '.' :: state) :
    copiedAttributes model state pieces =
      (pieces.filterMap (WrittenPiece.copy? model state)).flatMap WrittenPiece.source := by
  rw [copiedAttributes, List.filterMap_eq_flatMap_toList, List.flatMap_assoc]
  refine List.flatMap_congr fun p hp => ?_
  cases hstem : stemFor? model p.name with
  | none => simp [WrittenPiece.copy?, hstem]
  | some stem =>
    have hany : (pieces.any fun q => decide (q.name = stem ++ '.' :: state)) = false := by
      rw [List.any_eq_false]
      intro q hq
      simpa using hnew q hq stem
    obtain ⟨q, hquote, -⟩ := (hregular p hp).quoted
    simp [WrittenPiece.copy?, hstem, hany, hquote, WrittenPiece.source, WrittenPiece.extent,
      WrittenPiece.quoted, (hregular p hp).skipped]

theorem Tidy.copyAttributes_text (h : t.Tidy)
    (hnew : ∀ p ∈ t.pieces, ∀ stem, p.name ≠ stem ++ '.' :: state) (selfClosing : Bool) :
    copyAttributes (.ofStart selfClosing) model state
        (t.text selfClosing) = (t.append (t.copies model state)).text selfClosing := by
  have hadded : copiedAttributes model state (TagText.ofText (t.text selfClosing)).pieces =
      (t.copies model state).flatMap WrittenPiece.source := by
    rw [h.ofText_text]
    exact copiedAttributes_eq h.regular.pieces hnew
  rw [copyAttributes, hadded]
  split
  · next hnil =>
    have hcopies : t.copies model state = [] := by
      rw [List.flatMap_eq_nil_iff] at hnil
      refine List.eq_nil_iff_forall_not_mem.mpr fun q hq => ?_
      obtain ⟨p, -, hcopy⟩ := List.mem_filterMap.mp hq
      obtain ⟨stem, -, -, rfl⟩ := WrittenPiece.copy?_eq_some hcopy
      have := hnil _ hq
      simp [WrittenPiece.source, WrittenPiece.extent] at this
    rw [hcopies, StartTag.append, List.append_nil]
  · next hne =>
    refine h.regular.insertRaw_text (fun hpieces => ?_) _ selfClosing
    rw [copies, hpieces] at hne
    exact absurd rfl hne

variable (h : t.Listed) (hstate : isStateName state = true)
  (hfresh : ¬ state <:+: t.content)

include h hstate

theorem Listed.tidy_rewrite : (t.rewrite (.copy model state)).Tidy := by
  rw [← rewrite_copy]
  exact (h.tidy.extend h.excludeFrom hstate).extend
    (h.includeIn.extend isWord_includeIn h.excludeFrom hstate) hstate

include hfresh

/-- **Copying a state in a tag's text copies it in the tag.** -/
theorem Listed.copyTag_text (hmodel : model ≠ []) (selfClosing : Bool) :
    copyTag (.ofStart selfClosing) model state (t.text selfClosing) =
      (t.copied model state).text selfClosing := by
  have hexclude := h.tidy.extend_text h.excludeFrom isWord_excludeFrom
    (fun p hp _ => not_mem_entries_of_fresh hfresh hp) (·.contains model) selfClosing
  have htidy : (t.rewrite (.extend Word.excludeFrom state (·.contains model))).Tidy :=
    h.tidy.extend h.excludeFrom hstate
  have hnew : ∀ p ∈ (t.rewrite (.extend Word.excludeFrom state (·.contains model))).pieces,
      p.name = Word.includeIn → state ∉ StateList.entries p.value := by
    intro p hp hname
    obtain ⟨x, hx, value, hvalue, rfl⟩ := mem_rewrite hp
    rcases extend_eq_some hvalue with rfl | ⟨hother, -⟩
    · exact not_mem_entries_of_fresh hfresh hx
    · cases hother.symm.trans hname
  have hinclude := htidy.extend_text (h.includeIn.extend isWord_includeIn h.excludeFrom hstate)
    isWord_includeIn hnew (·.contains model) selfClosing
  rw [rewrite_copy] at hinclude
  rw [copyTag, if_neg hmodel, hexclude]
  dsimp only
  rw [hinclude, (h.tidy_rewrite hstate).copyAttributes_text, copies_rewrite]
  · rfl
  · intro p hp stem
    obtain ⟨x, hx, value, -, rfl⟩ := mem_rewrite hp
    exact ne_of_fresh hfresh hx stem

omit hfresh in
theorem Listed.copies_regular {q : WrittenPiece} (hq : q ∈ t.copies model state) :
    q.Regular ∧ NameChars q.name ∧ q.lead ≠ [] := by
  obtain ⟨p, hp, stem, hne, hname, rfl⟩ := mem_copies hq
  have hregular := h.tidy.regular.pieces p hp
  have hchars : NameChars (stem ++ '.' :: state) := by
    intro c hc
    rcases List.mem_append.mp hc with hc | hc
    · exact h.tidy.names p hp c (hname ▸ List.mem_append_left _ hc)
    · rcases List.mem_cons.mp hc with rfl | hc
      · decide
      · exact nameChars_of_isStateName hstate c hc
  refine ⟨⟨hregular.skipped, ?_, isSafeName_of_nameChars (by simp) hchars, ⟨[], [], rfl, ?_, ?_⟩,
    hregular.quoted⟩, hchars, List.cons_ne_nil _ _⟩
  · intro c hc
    rw [List.mem_singleton.mp hc]
    rfl
  · rintro c ⟨⟩
  · rintro c ⟨⟩

theorem Listed.tidy_copied : (t.copied model state).Tidy := by
  refine (h.tidy_rewrite hstate).append (fun q hq => h.copies_regular hstate hq)
    (nodup_copies h.tidy.regular.nodup model state) fun q hq hmem => ?_
  obtain ⟨p, -, stem, -, -, rfl⟩ := mem_copies hq
  obtain ⟨x, hx, heq⟩ := List.mem_map.mp hmem
  obtain ⟨y, hy, value, -, rfl⟩ := mem_rewrite hx
  exact ne_of_fresh hfresh hy stem heq

omit hfresh in
/-- A list that could be found before can be found in the copy. -/
theorem Listed.clear_copied {word : Text} (hword : IsWord word) (hclear : t.Clear word) :
    (t.copied model state).Clear word := by
  have hrewrite : (t.rewrite (.copy model state)).Clear word := by
    rw [← rewrite_copy]
    exact (hclear.extend hword h.excludeFrom hstate).extend hword
      (h.includeIn.extend isWord_includeIn h.excludeFrom hstate) hstate
  refine hrewrite.append (fun q hq => ?_) fun q hq hname => ?_
  · obtain ⟨p, hp, stem, -, -, rfl⟩ := mem_copies hq
    exact hclear.avoids p hp
  · obtain ⟨p, hp, stem, -, -, rfl⟩ := mem_copies hq
    exact absurd (by simp [← hname]) hword.dot

end StartTag

/-! ## What is read from a copy -/

/-- The attributes of an element in which a new state copies another one: the
lists that have the model have the new state too, and what applies to the model
alone is there for the new state. -/
def copiedEntries (model state : Text) (entries : List (Text × Text)) : List (Text × Text) :=
  (entries.map fun (name, value) =>
    (name, if Word.isStateList name && (StateList.entries value).contains model then
      StateList.render (StateList.entries value ++ [state]) else value)) ++
  entries.filterMap fun (name, value) =>
    (stemFor? model name).map fun stem => (stem ++ '.' :: state, value)

namespace StartTag

variable {t : StartTag} {model state : Text} {entries : List (Text × Text)}

/-- The copied attributes are read as those that they copy. -/
theorem mapM_readEntry_copies {pieces : List WrittenPiece}
    (h : (pieces.map WrittenPiece.entry).mapM readEntry = some entries) :
    ((pieces.filterMap (WrittenPiece.copy? model state)).map WrittenPiece.entry).mapM readEntry =
      some (entries.filterMap fun (name, value) =>
        (stemFor? model name).map fun stem => (stem ++ '.' :: state, value)) := by
  induction pieces generalizing entries with
  | nil =>
    cases h
    rfl
  | cons p pieces ih =>
    obtain ⟨⟨name, read⟩, others, hfirst, hothers, rfl⟩ := mapM_readEntry_cons.mp h
    obtain ⟨hname, hread⟩ := readEntry_eq_some.mp hfirst
    change name = p.name at hname
    subst hname
    cases hstem : stemFor? model p.name with
    | none =>
      rw [List.filterMap_cons_none (by simp [WrittenPiece.copy?, hstem]), ih hothers,
        List.filterMap_cons_none (by simp [hstem])]
    | some stem =>
      rw [List.filterMap_cons_some (by rw [WrittenPiece.copy?, hstem]; rfl),
        List.filterMap_cons_some (by simp only [hstem]; rfl), List.map_cons, mapM_readEntry_cons]
      exact ⟨(stem ++ '.' :: state, read), _, readEntry_eq_some.mpr ⟨rfl, hread⟩, ih hothers, rfl⟩

/-- **What is read from a copy.** -/
theorem Listed.entriesOf?_copied (h : t.Listed) (hstate : isStateName state = true)
    (hfresh : ¬ state <:+: t.content) (hentries : entriesOf? t.content = some entries)
    (hplain : ∀ p ∈ t.pieces, Word.isStateList p.name = true → '&' ∉ p.value) :
    entriesOf? (t.copied model state).content = some (copiedEntries model state entries) := by
  have hreads : ∀ p ∈ t.pieces, (ValueEdit.copy model state).Reads p.name p.value := by
    intro p hp
    cases hlist : Word.isStateList p.name with
    | false => exact ValueEdit.reads_of_eq fun value => by simp [ValueEdit.copy, hlist]
    | true =>
      have hold := hplain p hp hlist
      refine ValueEdit.reads_of_not_mem hold fun value' hvalue' => ?_
      rw [ValueEdit.copy, Option.mem_some_iff] at hvalue'
      subst hvalue'
      split
      · exact not_mem_render (by decide) (forall_mem_concat (fun _ hpart hmem =>
          hold (hpart.subset hmem)) (not_mem_of_isStateName hstate rfl))
      · exact hold
  have hrewrite := h.tidy.regular.entriesOf?_rewrite (h.tidy_rewrite hstate).regular hentries hreads
  have hmap : entries.filterMap (ValueEdit.copy model state).entry =
      entries.map fun (name, value) =>
        (name, if Word.isStateList name && (StateList.entries value).contains model then
          StateList.render (StateList.entries value ++ [state]) else value) := by
    rw [← List.filterMap_eq_map]
    rfl
  rw [hmap] at hrewrite
  rw [h.tidy.regular.entriesOf?_content] at hentries
  exact (h.tidy_rewrite hstate).regular.entriesOf?_append (h.tidy_copied hstate hfresh).regular
    hrewrite (mapM_readEntry_copies hentries)

end StartTag

end SkinMarkup
