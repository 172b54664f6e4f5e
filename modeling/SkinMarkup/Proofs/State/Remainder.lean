import SkinMarkup.Indent
import SkinMarkup.NamespaceEdit
import SkinMarkup.Proofs.Scan.Stopped
import SkinMarkup.Proofs.State.Actions
import SkinMarkup.Proofs.State.Fronted

/-!
# What edits leave alone where a scan fails

A text whose scan fails can be edited up to there. If its start tags are orderly, no
edit touches what stands from the failure on, and each says that it is not complete
(`leaves_of_failure`). The edits of states do two passes, and the second one scans the
outcome of the first: an orderly tag stays an element token in all of them, so that
nothing of the remainder is drawn into a token.

- `Laid.isElementText`: a tag that is laid out is an element token. Every edit leaves
  it laid out except a new attribute behind a name that ends in a blank
  (`Laid.isElementText_insertAttribute`).
- `IndentTask.exists_run`: indenting copies what the scan has left over.
-/

namespace SkinMarkup

theorem TokenKind.isElement_ofElement (t : Text) : (ofElement t).isElement = true := by
  rw [ofElement]
  split
  · rfl
  · split <;> rfl

namespace StartTag

/-- A start tag of a name and of attributes with blanks before them, whose values have
no backslash and no quotes and mention none of the names that are looked up. -/
structure Orderly (t : StartTag) : Prop where
  name : isXmlName t.name = true
  pieces : ∀ p ∈ t.pieces, p.Proper ∧ p.lead ≠ [] ∧ isXmlName p.name = true
  plain : ∀ p ∈ t.pieces, ∀ c ∈ p.value, c ≠ '\\' ∧ c ≠ '"' ∧ c ≠ '\''
  silent : ∀ p ∈ t.pieces, ∀ word ∈ Word.sought, containsWord word p.value = false
  blanks : Spaces t.blanks

variable {t : StartTag} {words : List Text} {l r : List WrittenPiece} {p : WrittenPiece}
  {selfClosing : Bool} {name : Text}

theorem Orderly.laid (h : t.Orderly) : t.Laid Word.sought where
  name := nameChars_of_isXmlName h.name
  pieces := fun p hp => ⟨(h.pieces p hp).1, (h.pieces p hp).2.1,
    fun hmem => (h.plain p hp _ hmem).1 rfl,
    fun word hword => (avoids_of_containsWord (isWord_of_mem_sought hword).chars
      (h.silent p hp word hword)).spares⟩
  blanks := h.blanks

/-! ## Tags that are element tokens -/

theorem Laid.isElementText (h : t.Laid words) (selfClosing : Bool) :
    IsElementText (t.text selfClosing) :=
  ⟨_, _, rfl, h.cutToken_text selfClosing, TokenKind.isElement_ofElement _⟩

/-- **A tag with a new attribute is an element token,** also if its name ends in
blanks, which then stand behind the attribute. -/
theorem Laid.isElementText_insertAttribute (h : t.Laid words) (hname : IsWord name) {value : Text}
    (hfits : Fits words [] value) (selfClosing : Bool) :
    IsElementText (insertAttribute (.ofStart selfClosing) name value (t.text selfClosing)) := by
  by_cases hnil : t.pieces = []
  · rw [insertAttribute_eq, h.insertRaw_bare hnil]
    exact ⟨_, _, rfl, h.cutToken_fronted (laid_usual hname hfits) selfClosing,
      by cases selfClosing <;> rfl⟩
  · have hreworked : Reworked words (fun _ => false) t _ := h.reworked_usual hname rfl hfits
    rw [h.insertAttribute_text fun h => absurd h hnil]
    exact hreworked.laid.isElementText selfClosing

/-! ## Removing a state from a tag -/

/-- Without an attribute whose value has no quotes a tag is laid out still. Blanks at
the end of its name may have gone, too. -/
theorem SlotIn.exists_remove {slot : ValueSlot} {a b : Text}
    (h : SlotIn selfClosing t name slot l p r a b) (ht : t.Laid words)
    (hplain : ∀ c ∈ p.value, c ≠ '"' ∧ c ≠ '\'') :
    ∃ t' : StartTag, t'.Laid words ∧ slot.remove = t'.text selfClosing := by
  obtain ⟨hp, hl, hr⟩ := mem_of_split h.split
  obtain ⟨q, hquote, -⟩ := (ht.pieces p hp).quoted
  rw [h.remove_eq (h.eq_nil hplain).2 hquote]
  by_cases hnil : l = []
  · refine ⟨⟨trimEnd t.name, r, t.blanks⟩, ⟨fun c hc => ht.name c (trimEnd_subset _ hc),
      fun x hx => ht.pieces x (hr hx), ht.blanks⟩, ?_⟩
    have htrim : trimEnd (t.upTo []) = '<' :: trimEnd t.name := by
      have hsplit : t.upTo [] = ['<'] ++ t.name := by simp [upTo]
      rw [hsplit, trimEnd_append]
      split
      · next hempty => rw [hempty]; rfl
      · rfl
    rw [hnil, htrim]
    simp [text, content, onFrom]
  · have htrim : trimEnd (t.upTo l) = t.upTo l := by
      refine trimEnd_upTo hnil fun x hx => ?_
      obtain ⟨q, hquote, hq, -⟩ := (ht.pieces x (hl hx)).quoted
      exact ⟨q, hquote, hq⟩
    refine ⟨{ t with pieces := l ++ r }, ⟨ht.name, fun x hx => ?_, ht.blanks⟩, ?_⟩
    · exact ht.pieces x ((List.mem_append.mp hx).elim (hl ·) (hr ·))
    · rw [htrim, text_eq rfl]
      rfl

section

variable (hwords : ∀ word ∈ words, IsWord word) (h : t.Laid words)

include hwords h

theorem Laid.exists_dropExcluded (hname : Word.excludeFrom ∈ words)
    (hplain : ∀ p ∈ t.pieces, ∀ c ∈ p.value, c ≠ '"' ∧ c ≠ '\'') {state tag : Text}
    {allStates : List Text}
    (hdrop : dropExcluded state allStates (t.text selfClosing) = some tag) :
    ∃ t' : StartTag, t'.Laid words ∧ tag = t'.text selfClosing := by
  rw [dropExcluded] at hdrop
  split at hdrop
  · cases hdrop
    exact ⟨t, h, rfl⟩
  · next slot hfind =>
    dsimp only at hdrop
    split at hdrop
    · cases hdrop
      rw [StateList.drop]
      split
      · obtain ⟨l, p, r, a, b, hslot⟩ := h.exists_slotIn hname (hwords _ hname) hfind
        exact hslot.exists_remove h (hplain p (mem_of_split hslot.split).1)
      · obtain ⟨t', hrevalued, htext⟩ : ∃ t', Revalued words (fun _ => false) t t' ∧ _ :=
          h.exists_shorter hwords hname rfl hfind List.erase_subset
        exact ⟨t', hrevalued.laid, htext⟩
    · split at hdrop
      · cases hdrop
      · cases hdrop
        exact ⟨t, h, rfl⟩

end

/-- **A tag that loses a state is laid out still.** -/
theorem Orderly.exists_removeFromTag (h : t.Orderly) {state tag : Text} {allStates : List Text}
    (hremove : removeFromTag state allStates (t.text selfClosing) = some tag) :
    ∃ t' : StartTag, t'.Laid Word.sought ∧ tag = t'.text selfClosing := by
  have hwords : ∀ word ∈ Word.sought, IsWord word := fun _ => isWord_of_mem_sought
  obtain ⟨tag₁, hexcluded, hremove⟩ := Option.bind_eq_some_iff.mp hremove
  obtain ⟨tag₂, hincluded, hremove⟩ := Option.bind_eq_some_iff.mp hremove
  obtain ⟨t₁, h₁, rfl⟩ := h.laid.exists_dropExcluded hwords (by simp [Word.sought])
    (fun p hp c hc => (h.plain p hp c hc).2) hexcluded
  obtain ⟨t₂, h₂, rfl⟩ : ∃ t₂, Revalued Word.sought (fun _ => false) t₁ t₂ ∧ _ :=
    h₁.exists_dropIncluded hwords (by simp [Word.sought]) rfl hincluded
  cases hremove
  exact ⟨_, h₂.laid.stripped state, h₂.laid.stripAttributes_text state selfClosing⟩

end StartTag

/-! ## The revisions -/

/-- A token that is an orderly start tag. -/
def Token.Orderly (token : Token) : Prop :=
  ∃ t : StartTag, t.Orderly ∧ token.text = t.text (token.kind == .selfClosing)

theorem Token.Orderly.exists_text {token : Token} (h : token.Orderly)
    (hstart : token.isStart = true) :
    ∃ (t : StartTag) (selfClosing : Bool), t.Orderly ∧ token.kind = .ofStart selfClosing ∧
      token.text = t.text selfClosing := by
  obtain ⟨t, ht, htext⟩ := h
  refine ⟨t, _, ht, ?_, htext⟩
  rw [Token.isStart] at hstart
  cases hkind : token.kind <;> rw [hkind] at hstart <;> first | rfl | cases hstart

section

variable {d : Dialect} {state old new : Text} {allStates : List Text} {tokens : List Token}
  (h : ∀ token ∈ tokens, token.isStart = true → token.Orderly)

include h

theorem revisesElements_blank (hstate : isStateName state = true)
    (hstates : ∀ s ∈ allStates, isStateName s = true) :
    RevisesElements (blankAction d allStates state) tokens where
  others := fun levels _ hstart => by rw [blankAction_of_not_isStart hstart]
  starts := by
    intro levels token hmem hstart tag hreplace
    obtain ⟨t, selfClosing, ht, hkind, htext⟩ := (h token hmem hstart).exists_text hstart
    have hwords : ∀ word ∈ Word.sought, IsWord word := fun _ => isWord_of_mem_sought
    have hscope : scopeOut token.kind allStates state token.text = some tag := by
      by_cases hname : token.localName = d.declarations
      · rw [blankAction_of_declarations hstart hname] at hreplace
        cases hreplace
      · obtain ⟨action, haction, hcases⟩ :=
          blankAction_of_isStart allStates state hstart hname levels
        rw [haction] at hreplace
        rcases hcases with ⟨rfl, -⟩ | ⟨tag', rfl, -, hscope⟩
        · cases hreplace
        · cases hreplace
          exact hscope
    rw [hkind, htext] at hscope
    have hcases : (∃ t', StartTag.Revalued Word.sought (fun _ => false) t t' ∧ _) ∨ _ :=
      ht.laid.scopeOut_cases hwords (by decide) rfl hstate hscope
    rcases hcases with ⟨t', hrevalued, rfl⟩ | ⟨-, -, -, rfl⟩
    · exact hrevalued.laid.isElementText selfClosing
    · exact ht.laid.isElementText_insertAttribute isWord_includeIn (fits_names hwords hstates)
        selfClosing

theorem revisesElements_copy (hstate : isStateName state = true) (model : Text) :
    RevisesElements (fun (_ : Unit) token => ((), copyAction d model state token)) tokens where
  others := fun _ _ hstart => copyAction_of_not_isStart hstart
  starts := by
    intro memory token hmem hstart tag hreplace
    obtain ⟨t, selfClosing, ht, hkind, htext⟩ := (h token hmem hstart).exists_text hstart
    dsimp only at hreplace
    by_cases hname : token.localName = d.declarations
    · rw [copyAction_of_declarations hstart hname] at hreplace
      cases hreplace
    · rw [copyAction_of_isStart hstart hname] at hreplace
      cases hreplace
      obtain ⟨t', hreworked, -, heq⟩ := ht.laid.exists_copyTag (fun _ => isWord_of_mem_sought)
        (by decide) (fun _ => by decide) (StartTag.spared_none _ [state]) List.mem_cons_self hstate
        selfClosing
      rw [hkind, htext, heq]
      exact hreworked.laid.isElementText selfClosing

theorem revisesElements_rename (hnew : isStateName new = true) (old : Text) :
    RevisesElements (renameAction d old new) tokens where
  others := fun met _ hstart => by rw [renameAction_of_not_isStart hstart]
  starts := by
    intro met token hmem hstart tag hreplace
    obtain ⟨t, selfClosing, ht, -, htext⟩ := (h token hmem hstart).exists_text hstart
    by_cases hname : token.localName = d.declarations
    · rw [renameAction_of_declarations hstart hname] at hreplace
      cases hreplace
    · obtain ⟨met', tag', haction, hcases⟩ := renameAction_of_isStart_cases hstart hname
      rw [haction] at hreplace
      cases hreplace
      rw [htext] at hcases
      obtain ⟨t', hreworked, rfl⟩ := ht.laid.exists_renamed (fun _ => isWord_of_mem_sought)
        (by decide) (StartTag.spared_none _ [old, new]) hnew (fun _ => by decide) hcases
      exact hreworked.laid.isElementText selfClosing

theorem revisesElements_remove (state : Text) (allStates : List Text) :
    RevisesElements (removeAction d state allStates) tokens where
  others := fun met _ hstart => by rw [removeAction_of_not_isStart hstart]
  starts := by
    intro met token hmem hstart tag hreplace
    obtain ⟨t, selfClosing, ht, hkind, htext⟩ := (h token hmem hstart).exists_text hstart
    have hremove := removeFromTag_of_removeAction hstart (Prod.ext rfl hreplace)
    rw [htext] at hremove
    obtain ⟨t', hlaid, rfl⟩ := ht.exists_removeFromTag hremove
    exact hlaid.isElementText selfClosing

end

/-! ## Indenting -/

/-- **Indenting up to behind the last token copies what the scan has left over.** -/
theorem IndentTask.exists_run (task : IndentTask) (s : Scan) (phase : IndentPhase)
    {segments : List Segment} (h : ∀ segment ∈ segments, segment.token.stop < task.stop) :
    ∃ indented, task.run s phase segments = ⟨indented ++ s.tail, s.failure.isNone⟩ := by
  induction segments generalizing phase with
  | nil => exact ⟨[], rfl⟩
  | cons segment rest ih =>
    obtain ⟨hstop, hrest⟩ := List.forall_mem_cons.mp h
    have hstart : ¬ task.stop ≤ segment.token.start := by
      rw [Token.stop] at hstop
      omega
    have hnext : ∀ {text : Text} {next : IndentPhase},
        ∃ indented, (⟨text ++ (task.run s next rest).text, (task.run s next rest).complete⟩ : Outcome) =
          ⟨indented ++ s.tail, s.failure.isNone⟩ := by
      intro text next
      obtain ⟨indented, hrun⟩ := ih next hrest
      exact ⟨text ++ indented, by rw [hrun, List.append_assoc]⟩
    simp only [run, if_neg hstart, if_neg (Nat.not_le.mpr hstop)]
    exact hnext

theorem Scan.stop_lt_width_of_failure {t : Text} {failure : Nat}
    (h : (scan t).failure = some failure) {s : Segment} (hs : s ∈ (scan t).segments) :
    s.token.stop < width t := by
  obtain ⟨gap, cs, htail, -, -, -⟩ := exists_remainder h
  obtain ⟨before, after, hsplit⟩ := List.append_of_mem hs
  have hconsecutive := consecutive_scanFrom 0 0 t
  rw [← scan, hsplit] at hconsecutive
  have hstart := hconsecutive.start_eq
  have hsource := congrArg width (source_scan t)
  rw [Scan.source, hsplit, htail] at hsource
  have hpos := Char.utf8Size_pos '<'
  simp only [List.flatMap_append, List.flatMap_cons, Segment.source, width_append, width_cons]
    at hsource hstart
  rw [Token.stop]
  omega

/-! ## Edits of a text that cannot be scanned to its end -/

/-- An edit that is not complete and leaves a text alone from an offset on. -/
def Leaves (offset : Nat) (t : Text) (o : Outcome) : Prop :=
  o.complete = false ∧ dropWidth offset t <:+ o.text

section

variable {t : Text} {failure : Nat} {σ : Type} {act : σ → Token → σ × Action}

theorem complete_reviseText (act : σ → Token → σ × Action) (memory : σ)
    (h : (scan t).isClean = false) : (reviseText act memory t).complete = false := h

theorem complete_andThen {o : Outcome} (h : o.complete = false) (edit : Text → Outcome) :
    (o.andThen edit).complete = false := by
  rw [Outcome.andThen, h, Bool.false_and]

theorem isClean_of_failure (h : (scan t).failure = some failure) : (scan t).isClean = false := by
  rw [Scan.isClean, h]
  rfl

/-- A revision, and then an edit of the root. -/
theorem leaves_andThen (h : (scan t).failure = some failure)
    (hact : RevisesElements act (scan t).tokens) (memory : σ) {next : Text → Outcome}
    (hnext : ∀ t, ∃ edit, (next t).text = (editRoot edit t).getD t) :
    Leaves failure t ((reviseText act memory t).andThen next) := by
  obtain ⟨edit, hedit⟩ := hnext (reviseText act memory t).text
  refine ⟨complete_andThen (complete_reviseText act memory (isClean_of_failure h)) next, ?_⟩
  have hsuffix := suffix_editRoot_reviseText h hact memory edit
  rwa [← hedit] at hsuffix

theorem leaves_cleanNamespaces (h : (scan t).failure = some failure) :
    Leaves failure t (cleanNamespaces t) := by
  obtain ⟨gap, cs, htail, -, hremainder, -⟩ := Scan.exists_remainder h
  refine ⟨isClean_of_failure h, suffix_revise_append ?_ () _⟩
  rw [hremainder, htail]
  exact List.suffix_append gap _

end

/-- **Edits leave alone what could not be scanned.** If the scan of a text fails and
the start tags before that are orderly, then each edit is not complete, and its text
ends with what stands from the failure on. If elements are open at the end of a text,
then each edit but indenting is not complete. -/
theorem leaves_of_failure (d : Dialect) (style : IndentStyle) (t : Text) :
    (∀ failure, (scan t).failure = some failure →
      (∀ token ∈ (scan t).tokens, token.isStart = true → token.Orderly) →
        (∀ allStates state model, (∀ s ∈ state :: allStates, isStateName s = true) →
          Leaves failure t (createState d allStates state model t)) ∧
        (∀ state allStates, Leaves failure t (removeState d state allStates t)) ∧
        (∀ old new, isStateName new = true → Leaves failure t (renameState d old new t)) ∧
        Leaves failure t (cleanNamespaces t) ∧
        Leaves failure t (indentRange style 0 (width t) t)) ∧
    ((scan t).failure = none → (scan t).depth ≠ 0 →
      (∀ allStates state model, (createState d allStates state model t).complete = false) ∧
        (∀ state allStates, (removeState d state allStates t).complete = false) ∧
        (∀ old new, (renameState d old new t).complete = false) ∧
        (cleanNamespaces t).complete = false) := by
  constructor
  · intro failure h horderly
    refine ⟨fun allStates state model hstates => ?_, fun state allStates => ?_,
      fun old new hnew => ?_, leaves_cleanNamespaces h, ?_⟩
    · obtain ⟨hstate, hstates⟩ := List.forall_mem_cons.mp hstates
      have hnext : ∀ t, ∃ edit, (declareState state t).text = (editRoot edit t).getD t :=
        fun t => ⟨_, declareState_text state t⟩
      cases model with
      | none => exact leaves_andThen h (revisesElements_blank horderly hstate hstates) [] hnext
      | some model => exact leaves_andThen h (revisesElements_copy horderly hstate model) () hnext
    · exact leaves_andThen h (revisesElements_remove horderly state allStates) false fun _ => ⟨_, rfl⟩
    · exact leaves_andThen h (revisesElements_rename horderly hnew old) false fun _ => ⟨_, rfl⟩
    · obtain ⟨gap, cs, htail, -, hremainder, -⟩ := Scan.exists_remainder h
      obtain ⟨indented, hrun⟩ := IndentTask.exists_run ⟨style, t, 0, width t⟩ (scan t) (.before [])
        fun s hs => Scan.stop_lt_width_of_failure h hs
      rw [indentRange, hrun, Leaves, h, hremainder, htail, ← List.append_assoc]
      exact ⟨rfl, List.suffix_append _ _⟩
  · intro h hdepth
    have hclean : (scan t).isClean = false := by
      rw [Scan.isClean, Bool.and_eq_false_iff]
      exact Or.inr (beq_false_of_ne hdepth)
    have hrevised : ∀ {σ : Type} (act : σ → Token → σ × Action) (memory : σ) (next : Text → Outcome),
        ((reviseText act memory t).andThen next).complete = false :=
      fun act memory next => complete_andThen (complete_reviseText act memory hclean) next
    refine ⟨fun allStates state model => ?_, fun _ _ => hrevised _ _ _, fun _ _ => hrevised _ _ _,
      hclean⟩
    cases model <;> exact hrevised _ _ _

/-- A text that is cut off in its third element, and one that is cut off between two
tags. -/
theorem leaves_of_cut_off :
    let t := "<r states=\"a,b\"><B includeIn=\"a\">x</B><C w:x=\"1\"/>\n<D".toList
    let opened := "<r><b>x</b>".toList
    (scan t).failure = some 51 ∧
      Leaves 51 t (createState Dialect.standard [['a'], ['b']] ['q'] none t) ∧
      Leaves 51 t (removeState Dialect.standard ['a'] [['a'], ['b']] t) ∧
      Leaves 51 t (renameState Dialect.standard ['a'] ['q'] t) ∧
      (scan opened).failure = none ∧
      (removeState Dialect.standard ['a'] [['a']] opened).complete = false := by
  intro t opened
  let tags : List StartTag :=
    [⟨['r'], [.usual Word.states ['a', ',', 'b']], []⟩, ⟨['B'], [.usual Word.includeIn ['a']], []⟩,
      ⟨['C'], [.usual ['w', ':', 'x'] ['1']], []⟩]
  have htokens : ∀ token ∈ (scan t).tokens, token.isStart = true →
      ∃ tag ∈ tags, token.text = tag.text (token.kind == .selfClosing) := by decide +kernel
  have hnames : ∀ tag ∈ tags, isXmlName tag.name = true ∧ tag.blanks = [] := by decide +kernel
  have hpieces : ∀ tag ∈ tags, ∀ p ∈ tag.pieces, p = .usual p.name p.value ∧
      isXmlName p.name = true ∧ ('\\' ∉ p.value ∧ '"' ∉ p.value ∧ '\'' ∉ p.value) ∧
        ∀ word ∈ Word.sought, containsWord word p.value = false := by decide +kernel
  have horderly : ∀ token ∈ (scan t).tokens, token.isStart = true → token.Orderly := by
    intro token hmem hstart
    obtain ⟨tag, htag, htext⟩ := htokens token hmem hstart
    obtain ⟨hname, hblanks⟩ := hnames tag htag
    refine ⟨tag, ⟨hname, fun p hp => ?_, fun p hp c hc => ?_,
      fun p hp => (hpieces tag htag p hp).2.2.2, hblanks ▸ nofun⟩, htext⟩
    all_goals obtain ⟨husual, hxml, ⟨hback, hdouble, hsingle⟩, -⟩ := hpieces tag htag p hp
    · refine ⟨?_, ?_, hxml⟩
      · rw [husual]
        exact StartTag.proper_usual (ne_nil_of_isXmlName hxml)
          (nameChars_of_isXmlName hxml) hdouble
      · rw [husual]
        exact List.cons_ne_nil _ _
    · exact ⟨fun h => hback (h ▸ hc), fun h => hdouble (h ▸ hc), fun h => hsingle (h ▸ hc)⟩
  have hfailure : (scan t).failure = some 51 := by decide +kernel
  have hopened : (scan opened).failure = none := by decide +kernel
  obtain ⟨hcreate, hremove, hrename, -⟩ :=
    (leaves_of_failure Dialect.standard .standard t).1 51 hfailure horderly
  obtain ⟨-, hincomplete, -⟩ :=
    (leaves_of_failure Dialect.standard .standard opened).2 hopened (by decide +kernel)
  exact ⟨hfailure, hcreate _ _ _ (by decide), hremove _ _, hrename _ _ (by decide), hopened,
    hincomplete _ _⟩

end SkinMarkup
