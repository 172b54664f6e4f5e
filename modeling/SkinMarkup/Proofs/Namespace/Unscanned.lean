import SkinMarkup.Proofs.Attribute.Entries
import SkinMarkup.Proofs.Namespace.Added
import SkinMarkup.Proofs.State.Remainder

/-!
# Cleaning a text that cannot be scanned to its end

Where the scan of a text fails, the rest has not been divided into tokens. Cleaning
copies the rest, and what it does to the start tags before does not depend on it: a
declaration stays if some element token before the failure has the prefix, and goes if
none has (`cleaned_of_failure`). **An element in the rest does not keep the declaration
that it needs** (`not_declared_of_cut_off`).
-/

namespace SkinMarkup

/-- A token that is the same but for declarations of prefixes that are not used. -/
structure Token.Pruned (used : List Text) (token token' : Token) : Prop where
  kind : token'.kind = token.kind
  name : token'.name = token.name
  inert : token.isStart = false → token'.text = token.text
  pieces : token.isStart = true →
    token'.pieces = token.pieces.filter fun p => !Namespace.isUnused used p.name

section

variable {used : List Text} {t : Text} {s : Segment}

/-- Nothing is declared that is not used. -/
theorem Token.Pruned.declares_used {token token' : Token} (h : token.Pruned used token')
    (hstart : token'.isStart = true) {p : Text} (hne : p ≠ []) (hnot : p ∉ used) :
    ∀ piece ∈ token'.pieces, piece.name ≠ Namespace.marker ++ p := by
  intro piece hpiece hname
  have hold : token.isStart = true := by rwa [Token.isStart, ← h.kind]
  rw [h.pieces hold] at hpiece
  have hkept := (List.mem_filter.mp hpiece).2
  rw [Namespace.isUnused_eq_true_iff.mpr ⟨p, hne, hnot, hname⟩] at hkept
  cases hkept

theorem LaidOut.pruned_cleaned (h : LaidOut t) (hs : s ∈ (scan t).segments) (used : List Text) :
    s.token.Pruned used (s.cleaned used).token := by
  cases hstart : s.token.isStart with
  | true =>
    obtain ⟨st, selfClosing, htag⟩ := h s hs hstart
    have hcleaned := Segment.isTag_cleaned htag used
    refine ⟨hcleaned.kind.trans htag.kind.symm, ?_, ?_, fun _ => ?_⟩
    · rw [hcleaned.name_eq, htag.name_eq]
      rfl
    · intro hinert
      cases hinert.symm.trans hstart
    · rw [hcleaned.pieces_eq, htag.pieces_eq, StartTag.pieces_pruned]
  | false =>
    rw [Segment.cleaned_of_not_isStart hstart]
    refine ⟨rfl, rfl, fun _ => rfl, ?_⟩
    intro hother
    cases hstart.symm.trans hother

/-- **The tokens of a text that is laid out lose unused declarations and nothing
else.** -/
theorem LaidOut.forall₂_tokens (h : LaidOut t) :
    List.Forall₂ (Token.Pruned (usedPrefixes (scan t).tokens)) (scan t).tokens
      (scan (cleanNamespaces t).text).tokens := by
  rw [used_scan, cleanNamespaces_eq]
  generalize Segment.used (scan t).segments = used
  have hrecut := (h.forall₂_cleaned used).imp fun _ _ hs => hs.toRecut
  have hcleaned : List.Forall₂ (fun s s' : Segment => s.token.Pruned used s'.token)
      (scan t).segments ((scan t).segments.map (.cleaned used)) :=
    List.forall₂_map_right_iff.mpr (List.forall₂_same.mpr fun s hs => h.pruned_cleaned hs used)
  rw [Scan.tokens, Scan.tokens, List.forall₂_map_left_iff, List.forall₂_map_right_iff]
  refine Segment.forall₂_of_unplaced (fun s s' => ?_) (segments_scan_recut hrecut) hcleaned
  constructor <;> exact fun hs => ⟨hs.kind, hs.name, hs.inert, hs.pieces⟩

/-- What is not dropped from a start tag is in the outcome. -/
theorem infix_cleanNamespaces {token : Token} (htoken : token ∈ startTokens t)
    {piece : WrittenPiece} (hpiece : piece ∈ token.pieces)
    (hkept : Namespace.isUnused (usedPrefixes (scan t).tokens) piece.name = false) :
    piece.source <:+: (cleanNamespaces t).text := by
  rw [Markup.startTokens_eq, List.mem_filter, List.mem_map] at htoken
  obtain ⟨⟨s, hs, rfl⟩, hstart⟩ := htoken
  rw [used_scan] at hkept
  rw [cleanNamespaces_eq]
  generalize Segment.used (scan t).segments = used at hkept ⊢
  have htag : piece.source <:+: (s.cleaned used).token.text := by
    rw [Segment.cleaned_of_isStart hstart]
    exact infix_dropUnused hpiece hkept
  have hsource : (s.cleaned used).token.text <:+: (s.cleaned used).source :=
    ⟨(s.cleaned used).gap, [], List.append_nil _⟩
  have hall : (s.cleaned used).source <:+:
      Segment.sourceAll ((scan t).segments.map (.cleaned used)) := by
    rw [Segment.sourceAll, List.flatMap_def]
    exact List.infix_of_mem_flatten (List.mem_map_of_mem (List.mem_map_of_mem hs))
  exact htag.trans (hsource.trans (hall.trans (List.prefix_append _ _).isInfix))

end

/-- **Where a scan fails, the prefixes before the failure decide.** If the scan of a text
fails, cleaning is not complete and leaves alone what stands from there on. Every
declaration of a prefix that an element token has stays. If the start tags are laid out,
the outcome has the same tokens, but no start tag declares a prefix that no element token
has, also if the rest has it. -/
theorem cleaned_of_failure {t : Text} {failure : Nat} (h : (scan t).failure = some failure) :
    Leaves failure t (cleanNamespaces t) ∧
      (∀ p ∈ usedPrefixes (scan t).tokens, ∀ token ∈ startTokens t, ∀ piece ∈ token.pieces,
        piece.name = Namespace.marker ++ p → piece.source <:+: (cleanNamespaces t).text) ∧
      (LaidOut t →
        List.Forall₂ (Token.Pruned (usedPrefixes (scan t).tokens)) (scan t).tokens
          (scan (cleanNamespaces t).text).tokens ∧
        ∀ p, p ≠ [] → p ∉ usedPrefixes (scan t).tokens →
          ∀ token ∈ startTokens (cleanNamespaces t).text, ∀ piece ∈ token.pieces,
            piece.name ≠ Namespace.marker ++ p) := by
  refine ⟨leaves_cleanNamespaces h, ?_, fun hlaid => ⟨hlaid.forall₂_tokens, ?_⟩⟩
  · intro p hp token htoken piece hpiece hname
    refine infix_cleanNamespaces htoken hpiece ?_
    rw [Bool.eq_false_iff, ne_eq, Namespace.isUnused_eq_true_iff]
    rintro ⟨q, -, hnot, hq⟩
    rw [hname, List.append_cancel_left_eq] at hq
    exact hnot (hq ▸ hp)
  · intro p hne hnot token htoken
    rw [Markup.startTokens_eq, List.mem_filter] at htoken
    exact forall_mem_of_forall₂ hlaid.forall₂_tokens
      (fun _ _ _ hpruned hstart => hpruned.declares_used hstart hne hnot) token htoken.1 htoken.2

/-- A text that is cut off in an element `p:b`. The declaration of `q` stays, since the
first two elements have `q`; `p` is declared nowhere in the outcome. -/
theorem cleaned_of_cut_off :
    let t := "<q:r xmlns:q=\"u\" xmlns:p=\"v\"><q:b xmlns:p=\"w\"/><p:b".toList
    let o := cleanNamespaces t
    (scan t).failure = some 47 ∧ LaidOut t ∧ ['q'] ∈ usedPrefixes (scan t).tokens ∧
      ['p'] ∉ usedPrefixes (scan t).tokens ∧ Leaves 47 t o ∧
      " xmlns:q=\"u\"".toList <:+: o.text ∧
      ∀ token ∈ startTokens o.text, ∀ piece ∈ token.pieces,
        piece.name ≠ Namespace.marker ++ ['p'] := by
  intro t o
  let declared (p uri : Char) : WrittenPiece := Namespace.piece ⟨[p], [uri]⟩
  let tags : List (StartTag × Bool) :=
    [(⟨['q', ':', 'r'], [declared 'q' 'u', declared 'p' 'v'], []⟩, false),
      (⟨['q', ':', 'b'], [declared 'p' 'w'], []⟩, true)]
  have htokens : ∀ s ∈ (scan t).segments, ∃ tag ∈ tags,
      s.token.kind = .ofStart tag.2 ∧ s.token.text = tag.1.text tag.2 := by decide +kernel
  have hpieces : ∀ p uri : Char, isNameStart p = true ∧ isNameChar p = true →
      uri ≠ '"' ∧ uri ≠ '\\' → (declared p uri).Laid [] := by
    intro p uri hp huri
    refine (Namespace.writable_of_isXmlName ?_ fun c hc => ?_).laid
    · simp [isXmlName, hp]
    · rwa [List.mem_singleton.mp hc]
  have htags : ∀ tag ∈ tags, tag.1.Laid [] ∧ tag.1.name ≠ [] := by
    have hq := hpieces 'q' 'u' (by decide) (by decide)
    have hp := hpieces 'p' 'v' (by decide) (by decide)
    have hp' := hpieces 'p' 'w' (by decide) (by decide)
    simp only [tags, List.forall_mem_cons]
    refine ⟨⟨⟨by decide, by simp [hq, hp], List.forall_mem_nil _⟩, List.cons_ne_nil _ _⟩,
      ⟨⟨by decide, by simp [hp'], List.forall_mem_nil _⟩, List.cons_ne_nil _ _⟩,
      List.forall_mem_nil _⟩
  have hlaid : LaidOut t := by
    intro s hs _
    obtain ⟨tag, htag, hkind, htext⟩ := htokens s hs
    obtain ⟨hlaid, hnamed⟩ := htags tag htag
    exact ⟨tag.1, tag.2, hlaid, hnamed, hkind, htext⟩
  have hfailure : (scan t).failure = some 47 := by decide +kernel
  have hused : ['q'] ∈ usedPrefixes (scan t).tokens := by decide +kernel
  have hunused : ['p'] ∉ usedPrefixes (scan t).tokens := by decide +kernel
  obtain ⟨hleaves, hkept, hgone⟩ := cleaned_of_failure hfailure
  obtain ⟨-, hgone⟩ := hgone hlaid
  refine ⟨hfailure, hlaid, hused, hunused, hleaves, ?_, hgone ['p'] (List.cons_ne_nil _ _) hunused⟩
  have hdeclared : ∃ token ∈ startTokens t, ∃ piece ∈ token.pieces,
      piece.name = Namespace.marker ++ ['q'] ∧ piece.source = " xmlns:q=\"u\"".toList := by
    decide +kernel
  obtain ⟨token, htoken, piece, hpiece, hname, hsource⟩ := hdeclared
  rw [← hsource]
  exact hkept ['q'] hused token htoken piece hpiece hname

/-- A declaration goes that the rest of the text needs: the cut-off element `p:b` has no
namespace any more. -/
theorem not_declared_of_cut_off :
    let t := "<r xmlns:p=\"u\"><p:b".toList
    (scan t).failure = some 15 ∧ "<p:".toList <:+: dropWidth 15 t ∧
      ∃ token ∈ startTokens t, ∃ piece ∈ token.pieces,
        piece.name = Namespace.marker ++ ['p'] ∧ ¬ piece.source <:+: (cleanNamespaces t).text := by
  decide +kernel

end SkinMarkup
