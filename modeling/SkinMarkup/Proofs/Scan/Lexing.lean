import SkinMarkup.Event.Lexer
import SkinMarkup.Proofs.Text.Search
import SkinMarkup.Scan.Basic

/-!
# Scanning and lexing cut at the same places

A scan and the lexer divide a text by rules of their own. They differ on two
things only: the scan ends a document type declaration at its first `>`, and it
takes a quote after a backslash for none. On a text with neither,
`scanFrom_of_lexFrom` says that a lexed text is scanned to its end and that
the element tokens are its tag events.
-/

namespace SkinMarkup

/-- A text without `<!DOCTYPE`, in upper or lower case. -/
def NoDoctype (t : Text) : Prop :=
  containsWord ('<' :: '!' :: Event.doctype) (t.map Char.toLower) = false

/-- A text without a quote right after a backslash. -/
def NoEscapedQuote (t : Text) : Prop :=
  containsWord ['\\', '"'] t = false ∧ containsWord ['\\', '\''] t = false

instance (t : Text) : Decidable (NoDoctype t) := inferInstanceAs (Decidable (_ = false))

instance (t : Text) : Decidable (NoEscapedQuote t) := inferInstanceAs (Decidable (_ ∧ _))

theorem NoDoctype.of_part {s t : Text} (h : NoDoctype t) (hs : s <:+: t) : NoDoctype s :=
  containsWord_eq_false_of_part (hs.map Char.toLower) h

theorem NoEscapedQuote.of_part {s t : Text} (h : NoEscapedQuote t) (hs : s <:+: t) :
    NoEscapedQuote s :=
  ⟨containsWord_eq_false_of_part hs h.1, containsWord_eq_false_of_part hs h.2⟩

theorem NoEscapedQuote.tail {c : Char} {t : Text} (h : NoEscapedQuote (c :: t)) :
    NoEscapedQuote t :=
  h.of_part (List.suffix_cons c t).isInfix

/-- Where two characters meet, the second is no quote after a backslash. -/
theorem NoEscapedQuote.ne_backslash {c d : Char} {t : Text} (h : NoEscapedQuote (c :: d :: t))
    (hd : d = '"' ∨ d = '\'') : c ≠ '\\' := by
  rintro rfl
  have hword : ∀ q : Char, ['\\', q] <:+: '\\' :: q :: t := fun q => ⟨[], t, rfl⟩
  rcases hd with rfl | rfl
  · have := containsWord_iff.mpr (hword '"')
    rw [h.1] at this
    cases this
  · have := containsWord_iff.mpr (hword '\'')
    rw [h.2] at this
    cases this

/-- No declaration of a text without `<!DOCTYPE` starts like one. -/
theorem NoDoctype.isDoctype_eq_false {content after : Text}
    (h : NoDoctype ('<' :: '!' :: content ++ after)) : Event.isDoctype content = false := by
  rw [Bool.eq_false_iff]
  intro hd
  rw [Event.isDoctype, beq_iff_eq] at hd
  have hword : ('<' :: '!' :: Event.doctype) <:+:
      ('<' :: '!' :: content ++ after).map Char.toLower := by
    refine ⟨[], ((content.drop Event.doctype.length) ++ after).map Char.toLower, ?_⟩
    conv => rhs; rw [← List.take_append_drop Event.doctype.length content]
    simp only [List.map_append, List.map_cons, List.cons_append, hd, List.nil_append,
      List.append_assoc]
    rfl
  have := containsWord_iff.mpr hword
  rw [h] at this
  cases this

namespace Event

/-- The kind of the element token that an event is, if it is one. -/
def elementKind? : Event → Option TokenKind
  | opening _ => some .opening
  | empty _ => some .selfClosing
  | closing _ => some .closing
  | _ => none

/-- The element tokens among events, the first of which stands at byte
`offset`. -/
def tokensFrom (offset : Nat) : List Event → List Token
  | [] => []
  | event :: events =>
    (event.elementKind?.map fun kind => ⟨kind, offset, event.source⟩).toList ++
      tokensFrom (offset + width event.source) events

/-- The number of open elements after events, given their number before.
There is none if an end tag finds nothing open. -/
def depthAfter (depth : Nat) : List Event → Option Nat
  | [] => some depth
  | event :: events =>
    match event.elementKind? with
    | none => depthAfter depth events
    | some kind => (kind.depthAfter depth).bind fun depth => depthAfter depth events

theorem tokensFrom_cons (offset : Nat) (event : Event) (events : List Event) :
    tokensFrom offset (event :: events) =
      tokensFrom offset [event] ++ tokensFrom (offset + width event.source) events := by
  simp [tokensFrom]

theorem depthAfter_cons (depth : Nat) (event : Event) (events : List Event) :
    depthAfter depth (event :: events) =
      (depthAfter depth [event]).bind fun depth => depthAfter depth events := by
  cases hkind : event.elementKind? with
  | none => simp [depthAfter, hkind]
  | some kind => cases hdepth : kind.depthAfter depth <;> simp [depthAfter, hkind, hdepth]

end Event

namespace Scan

/-! ## One token -/

/-- Away from escaped quotes both ways to find the end of a tag agree. -/
theorem cutElement_eq_cutTag {previous : Char} {quote : Option Char} {t : Text}
    (hquote : ∀ q ∈ quote, q = '"' ∨ q = '\'') (h : NoEscapedQuote (previous :: t)) :
    cutElement previous quote t = Event.cutTag quote t := by
  induction t generalizing previous quote with
  | nil => cases quote <;> rfl
  | cons c cs ih =>
    cases quote with
    | none =>
      by_cases hc : c = '>'
      · simp only [cutElement, Event.cutTag, if_pos hc]
      · by_cases hq : c = '"' ∨ c = '\''
        · have hprev := h.ne_backslash hq
          simp only [cutElement, Event.cutTag, if_neg hc, if_pos hq, if_pos (And.intro hq hprev)]
          rw [ih (by rintro q ⟨⟩; exact hq) h.tail]
        · have hand : ¬((c = '"' ∨ c = '\'') ∧ previous ≠ '\\') := fun hand => hq hand.1
          simp only [cutElement, Event.cutTag, if_neg hc, if_neg hq, if_neg hand]
          rw [ih (by rintro q ⟨⟩) h.tail]
    | some q =>
      have hq := hquote q rfl
      by_cases hc : c = q
      · have hprev := h.ne_backslash (hc ▸ hq)
        simp only [cutElement, Event.cutTag, if_pos hc, if_pos (And.intro hc hprev)]
        rw [ih (by rintro q ⟨⟩) h.tail]
      · have hand : ¬(c = q ∧ previous ≠ '\\') := fun hand => hc hand.1
        simp only [cutElement, Event.cutTag, if_neg hc, if_neg hand]
        rw [ih hquote h.tail]

theorem cutElement_of_cutTag {previous : Char} {t : Text} (h : NoEscapedQuote (previous :: t)) :
    cutElement previous none t = Event.cutTag none t :=
  cutElement_eq_cutTag (by rintro q ⟨⟩) h

theorem cutToken_of_head? {t : Text} (h : t.head? ≠ some '!') (h' : t.head? ≠ some '?') :
    cutToken t = cutTagToken t := by
  cases t with
  | nil => rfl
  | cons c cs =>
    have hc : '!' ≠ c := fun e => h (by rw [e]; rfl)
    have hc' : '?' ≠ c := fun e => h' (by rw [e]; rfl)
    simp [cutToken, after?, hc, hc']

theorem startsWith_slash (t : Text) :
    startsWith ['<', '/'] ('<' :: t) = decide (t.head? = some '/') := by
  cases t with
  | nil => rfl
  | cons c cs =>
    by_cases hc : c = '/'
    · simp [startsWith, after?, hc]
    · simp [startsWith, after?, hc, Ne.symm hc]

theorem isSome_before?_slash (t : Text) :
    (before? ['/'] t).isSome = decide (t.reverse.head? = some '/') := by
  rw [before?, Option.isSome_map]
  cases t.reverse with
  | nil => rfl
  | cons c cs =>
    by_cases hc : c = '/'
    · simp [after?, hc]
    · simp [after?, hc, Ne.symm hc]

theorem endsWith_slash (content : Text) :
    endsWith ['/', '>'] ('<' :: content ++ ['>']) = (before? ['/'] content).isSome := by
  have hrev : ('<' :: content ++ ['>']).reverse = '>' :: (content.reverse ++ ['<']) := by simp
  rw [endsWith, before?, before?, hrev]
  cases content.reverse with
  | nil => rfl
  | cons c cs =>
    simp only [List.reverse_cons, List.reverse_nil, List.nil_append, List.cons_append, after?,
      Option.isSome_map, if_pos]
    split <;> rfl

variable {t rest : Text} {event : Event}

/-- What a piece of markup says about the token at its place: the token has the
same text, and it is an element token exactly when the event is a tag. -/
def Cuts (t : Text) (event : Event) (rest : Text) : Prop :=
  ∃ kind, cutToken t = some (kind, event.source, rest) ∧
    event.elementKind? = if kind.isElement then some kind else none

theorem cuts_of_nextCdata (h : Event.nextCdata t = .ok (event, rest)) :
    Cuts ('!' :: t) event rest := by
  unfold Event.nextCdata at h
  split at h
  · cases h
  · next content hafter =>
    split at h
    · next content after hcut =>
      cases h
      refine ⟨.cdata, ?_, rfl⟩
      rw [after?_eq_some hafter]
      simp [cutToken, after?, cutEnclosed, hcut, Event.source]
    · cases h

theorem cuts_of_nextComment (h : Event.nextComment t = .ok (event, rest)) :
    Cuts ('!' :: t) event rest := by
  unfold Event.nextComment at h
  split at h
  · split at h
    · next content after hcut =>
      cases h
      refine ⟨.comment, ?_, rfl⟩
      simp [cutToken, after?, cutEnclosed, hcut, Event.source]
    · cases h
  · cases h

theorem cuts_of_nextInstruction (h : Event.nextInstruction t = .ok (event, rest)) :
    Cuts ('?' :: t) event rest := by
  unfold Event.nextInstruction at h
  split at h
  · cases h
  · split at h
    · next content after hcut =>
      cases h
      refine ⟨.instruction, ?_, rfl⟩
      simp [cutToken, after?, cutEnclosed, hcut, Event.source]
    · cases h

theorem cuts_of_nextClosing (hquote : NoEscapedQuote ('<' :: '/' :: t))
    (h : Event.nextClosing t = .ok (event, rest)) : Cuts ('/' :: t) event rest := by
  unfold Event.nextClosing at h
  split at h
  · next content after hcut =>
    cases h
    have htag := cutElement_of_cutTag hquote
    have hslash : Event.cutTag none ('/' :: t) = some ('/' :: content, rest) := by
      simp [Event.cutTag, hcut]
    refine ⟨.closing, ?_, rfl⟩
    rw [hslash] at htag
    simp [cutToken, after?, cutTagToken, htag, TokenKind.ofElement, startsWith, Event.source]
  · cases h

theorem cuts_of_nextOpening (hquote : NoEscapedQuote ('<' :: t))
    (hfirst : ∀ c ∈ t.head?, c ≠ '!' ∧ c ≠ '/' ∧ c ≠ '?')
    (h : Event.nextOpening t = .ok (event, rest)) : Cuts t event rest := by
  unfold Event.nextOpening at h
  split at h
  · next content after hcut =>
    have htag := cutElement_of_cutTag hquote
    rw [hcut] at htag
    have htoken : cutToken t =
        some (TokenKind.ofElement ('<' :: content ++ ['>']), '<' :: content ++ ['>'], after) := by
      have hskip : cutToken t = cutTagToken t := by
        cases t with
        | nil => rfl
        | cons c cs =>
          obtain ⟨h₁, -, h₃⟩ := hfirst c rfl
          simp [cutToken, after?, Ne.symm h₁, Ne.symm h₃]
      rw [hskip, cutTagToken, htag]
      rfl
    have hstart : startsWith ['<', '/'] ('<' :: content ++ ['>']) = false := by
      cases content with
      | nil => rfl
      | cons c cs =>
        have hc : c ≠ '/' := (hfirst c (by rw [Event.cutTag_eq_some hcut]; rfl)).2.1
        simp [startsWith, after?, Ne.symm hc]
    have hend := endsWith_slash content
    split at h
    · next inner hbefore =>
      cases h
      refine ⟨.selfClosing, ?_, rfl⟩
      rw [hbefore] at hend
      rw [htoken, TokenKind.ofElement, hstart, hend, before?_eq_some hbefore]
      simp [Event.source]
    · next hbefore =>
      cases h
      refine ⟨.opening, ?_, rfl⟩
      rw [hbefore] at hend
      rw [htoken, TokenKind.ofElement, hstart, hend]
      rfl
  · cases h

/-- **The lexer's markup is the scan's token.** -/
theorem cuts_of_nextMarkup (hdoctype : NoDoctype ('<' :: t)) (hquote : NoEscapedQuote ('<' :: t))
    (h : Event.nextMarkup t = .ok (event, rest)) : Cuts t event rest := by
  unfold Event.nextMarkup at h
  split at h
  · next more =>
    -- A document type declaration would be the only declaration left.
    have hnone : ∀ e r, Event.nextDoctype more ≠ .ok (e, r) := by
      intro e r hd
      unfold Event.nextDoctype at hd
      split at hd
      · cases hd
      · next content after hcut =>
        rw [Event.cutBalanced_eq_some hcut] at hdoctype
        rw [NoDoctype.isDoctype_eq_false hdoctype] at hd
        cases hd
    unfold Event.nextDeclaration at h
    split at h
    · exact cuts_of_nextCdata h
    · exact cuts_of_nextComment h
    · exact absurd h (hnone _ _)
    · exact absurd h (hnone _ _)
    · cases h
  · exact cuts_of_nextClosing hquote h
  · exact cuts_of_nextInstruction h
  · next h₁ h₂ h₃ =>
    refine cuts_of_nextOpening hquote ?_ h
    intro c hc
    obtain ⟨cs, rfl⟩ : ∃ cs, t = c :: cs := by
      cases t with
      | nil => cases hc
      | cons d cs => cases hc; exact ⟨cs, rfl⟩
    exact ⟨fun e => h₁ cs (e ▸ rfl), fun e => h₂ cs (e ▸ rfl), fun e => h₃ cs (e ▸ rfl)⟩

/-! ## The whole text -/

section

variable {cs text : Text} {c : Char} {kind : TokenKind} {offset depth depth' : Nat}

theorem scanFrom_of_dropWhile_eq_nil (hrest : t.dropWhile (· != '<') = []) :
    scanFrom offset depth t = ⟨[], t, depth, none⟩ := by
  fun_cases scanFrom offset depth t with
  | case1 => rfl
  | case2 c cs h => rw [hrest] at h; cases h
  | case3 c cs h => rw [hrest] at h; cases h
  | case4 c cs h => rw [hrest] at h; cases h

/-- A scan fails where no token can be cut off, or only a stray end tag. -/
theorem scanFrom_of_failure (hrest : t.dropWhile (· != '<') = c :: cs)
    (hfail : ((cutToken cs).bind fun cut => cut.1.depthAfter depth) = none) :
    scanFrom offset depth t =
      ⟨[], t, depth, some (offset + width (t.takeWhile (· != '<')))⟩ := by
  fun_cases scanFrom offset depth t with
  | case1 h => rw [hrest] at h; cases h
  | case2 => rfl
  | case3 => rfl
  | case4 c' cs' h gap start kind text rest hcut d hdepth =>
    rw [hrest] at h
    cases h
    rw [hcut, Option.bind_some, hdepth] at hfail
    cases hfail

theorem scanFrom_of_cutToken (hrest : t.dropWhile (· != '<') = c :: cs)
    (hcut : cutToken cs = some (kind, text, rest)) (hdepth : kind.depthAfter depth = some depth') :
    scanFrom offset depth t =
      let gap := t.takeWhile (· != '<')
      let start := offset + width gap
      let others := scanFrom (start + width text) depth' rest
      { others with segments := ⟨gap, ⟨kind, start, text⟩⟩ :: others.segments } := by
  fun_cases scanFrom offset depth t with
  | case1 h => rw [hrest] at h; cases h
  | case2 c' cs' h gap start hnone =>
    rw [hrest] at h
    cases h
    rw [hcut] at hnone
    cases hnone
  | case3 c' cs' h gap start kind' text' rest' hcut' hnone =>
    rw [hrest] at h
    cases h
    rw [hcut] at hcut'
    cases hcut'
    rw [hdepth] at hnone
    cases hnone
  | case4 c' cs' h gap start kind' text' rest' hcut' d hdepth' =>
    rw [hrest] at h
    cases h
    rw [hcut] at hcut'
    cases hcut'
    rw [hdepth] at hdepth'
    cases hdepth'
    rfl

end

/-- What a scan says about elements and about its end. -/
def reading (s : Scan) : List Token × Nat × Option Nat :=
  (s.elements, s.depth, s.failure)

/-- Text before the first `<` only moves what follows. -/
theorem reading_scanFrom_append (offset depth : Nat) {raw : Text} (rest : Text)
    (hraw : ∀ c ∈ raw, (c != '<') = true) :
    (scanFrom offset depth (raw ++ rest)).reading =
      (scanFrom (offset + width raw) depth rest).reading := by
  have hdrop : (raw ++ rest).dropWhile (· != '<') = rest.dropWhile (· != '<') :=
    List.dropWhile_append_of_pos hraw
  have htake : (raw ++ rest).takeWhile (· != '<') = raw ++ rest.takeWhile (· != '<') :=
    List.takeWhile_append_of_pos hraw
  have hstart : offset + width ((raw ++ rest).takeWhile (· != '<')) =
      offset + width raw + width (rest.takeWhile (· != '<')) := by
    rw [htake, width_append, Nat.add_assoc]
  cases hrest : rest.dropWhile (· != '<') with
  | nil =>
    rw [scanFrom_of_dropWhile_eq_nil hrest, scanFrom_of_dropWhile_eq_nil (hdrop.trans hrest)]
    rfl
  | cons c cs =>
    cases hcut : (cutToken cs).bind fun cut => cut.1.depthAfter depth with
    | none =>
      rw [scanFrom_of_failure hrest hcut, scanFrom_of_failure (hdrop.trans hrest) hcut, hstart]
      rfl
    | some depth' =>
      obtain ⟨⟨kind, text, after⟩, hcut, hdepth⟩ := Option.bind_eq_some_iff.mp hcut
      rw [scanFrom_of_cutToken hrest hcut hdepth,
        scanFrom_of_cutToken (hdrop.trans hrest) hcut hdepth]
      dsimp only
      rw [hstart]
      rfl

/-- A token at the start of a text comes first among its elements, if it is
one. -/
theorem reading_scanFrom_cons {offset depth depth' : Nat} {cs : Text} (hcuts : Cuts cs event rest)
    (hdepth : Event.depthAfter depth [event] = some depth') :
    (scanFrom offset depth ('<' :: cs)).reading =
      let others := scanFrom (offset + width event.source) depth' rest
      (Event.tokensFrom offset [event] ++ others.elements, others.depth, others.failure) := by
  obtain ⟨kind, hcut, hkind⟩ := hcuts
  have hafter : kind.depthAfter depth = some depth' := by
    cases kind <;> simp_all [Event.depthAfter, TokenKind.isElement, TokenKind.isStart,
      TokenKind.depthAfter]
  have hrest : ('<' :: cs).dropWhile (· != '<') = '<' :: cs := rfl
  rw [scanFrom_of_cutToken hrest hcut hafter]
  simp only [reading, elements, tokens, List.map_cons, List.filter_cons, Token.isElement,
    Event.tokensFrom, hkind]
  cases hk : kind.isElement <;> rfl

/-- **A text that can be lexed is scanned to its end,** provided that its tags
are balanced from the left; its elements are the tag events. -/
theorem scanFrom_of_lexFrom {offset depth final : Nat} {t : Text} {events : List Event}
    (hdoctype : NoDoctype t) (hquote : NoEscapedQuote t)
    (hlex : Event.lexFrom offset t = (events, none))
    (hdepth : Event.depthAfter depth events = some final) :
    (scanFrom offset depth t).reading = (Event.tokensFrom offset events, final, none) := by
  fun_induction Event.lexFrom offset t generalizing depth events with
  | case1 offset =>
    cases hlex
    cases hdepth
    rw [scanFrom_of_dropWhile_eq_nil rfl]
    rfl
  | case2 offset c cs fault distance h => cases hlex
  | case3 offset c cs event rest hnext _ events' fault _ ih =>
    cases hlex
    rw [Event.depthAfter_cons] at hdepth
    obtain ⟨depth', hfirst, hothers⟩ := Option.bind_eq_some_iff.mp hdepth
    have hsource := Event.next_source hnext
    have hrest : rest <:+: c :: cs := ⟨event.source, [], by rw [List.append_nil, hsource]⟩
    have ih := ih (hdoctype.of_part hrest) (hquote.of_part hrest) ‹_› hothers
    rw [Event.tokensFrom_cons]
    unfold Event.next at hnext
    split at hnext
    · next hc =>
      subst hc
      rw [reading_scanFrom_cons (cuts_of_nextMarkup hdoctype hquote hnext) hfirst]
      simp only [reading, Prod.mk.injEq] at ih
      simp only [ih]
    · next hc =>
      cases hnext
      cases hfirst
      -- A run of text is no token, and the scan passes over it on its way.
      rw [← hsource, reading_scanFrom_append _ _ _ ?_, ih]
      · rfl
      · intro d hd
        rcases List.mem_cons.mp hd with rfl | hd
        · simpa using hc
        · exact List.all_eq_true.mp List.all_takeWhile d hd

end Scan

end SkinMarkup
