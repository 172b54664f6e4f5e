import SkinMarkup.Proofs.State.LongerLists
import SkinMarkup.Proofs.TagText.Found
import SkinMarkup.State.Rename

/-!
# Names of states within values

Where a search finds a value that is nothing but the name of a state, the name
stands within the value of one attribute: every quote that is followed by another
one before the next equals sign belongs to a value (`Tidy.exists_within`). So
renaming what is found changes one value and leaves the tag as tidy as it was,
whatever the values of the tag are (`Tidy.exists_respelled`).
-/

namespace SkinMarkup

theorem exists_of_append_eq {x y front back : Text} {q : Char}
    (h : x ++ y = front ++ q :: back) (hq : q ∉ x) :
    ∃ rest, front = x ++ rest ∧ y = rest ++ q :: back := by
  rcases List.append_eq_append_iff.mp h with ⟨rest, rfl, rfl⟩ | ⟨rest, rfl, hrest⟩
  · exact ⟨rest, rfl, rfl⟩
  · cases rest with
    | nil => exact ⟨[], by simp, by simpa using hrest.symm⟩
    | cons c rest =>
      obtain ⟨rfl, -⟩ := List.cons.inj hrest
      exact absurd (List.mem_append_right _ List.mem_cons_self) hq

/-- A text without a quote in front of one ends where the other does, or before. -/
theorem exists_of_quotes {v value back rest : Text} {q q' : Char} (hv : q ∉ v)
    (h : v ++ q' :: back = value ++ q :: rest) :
    ∃ b, value = v ++ b ∧ q' :: back = b ++ q :: rest ∧ ∀ c ∈ b.head?, c = q' := by
  obtain ⟨b, rfl, hb⟩ := exists_of_append_eq h hv
  refine ⟨b, rfl, hb, fun c hc => ?_⟩
  cases b with
  | nil => cases hc
  | cons d b =>
    cases hc
    exact (List.cons.inj hb).1.symm

/-- Two quotes around `v` stand in the value between quotes `q'`, or behind it. -/
theorem exists_of_quoted {v value inner back rest : Text} {q q' : Char} (hq : q ∉ v) (hq' : q' ∉ v)
    (hrest : rest ≠ v ++ q :: back)
    (h : q' :: (value ++ q' :: rest) = inner ++ q :: (v ++ q :: back)) :
    (∃ a b, value = a ++ v ++ b ∧ inner ++ [q] = q' :: a ∧ q :: back = b ++ q' :: rest ∧
        (∀ c ∈ a.getLast?, c = q) ∧ ∀ c ∈ b.head?, c = q) ∨
      ∃ inner', inner = q' :: (value ++ q' :: inner') ∧ rest = inner' ++ q :: (v ++ q :: back) := by
  cases inner with
  | nil =>
    -- The first of them opens the value.
    obtain ⟨rfl, hvalue⟩ := List.cons.inj h
    obtain ⟨b, rfl, hback, hfirst⟩ := exists_of_quotes hq hvalue.symm
    exact Or.inl ⟨[], b, rfl, rfl, hback, nofun, hfirst⟩
  | cons c inner =>
    obtain ⟨rfl, hvalue⟩ := List.cons.inj h
    rcases List.append_eq_append_iff.mp hvalue with ⟨inner, rfl, hinner⟩ | ⟨inner, rfl, hinner⟩
    · -- It stands behind the value, and it does not close it.
      cases inner with
      | nil => exact absurd (List.cons.inj hinner).2 hrest
      | cons c inner =>
        obtain ⟨rfl, hbehind⟩ := List.cons.inj hinner
        exact Or.inr ⟨inner, rfl, hbehind⟩
    · -- It stands within the value.
      cases inner with
      | nil => exact absurd (List.cons.inj hinner).2.symm hrest
      | cons c inner =>
        obtain ⟨rfl, hinside⟩ := List.cons.inj hinner
        obtain ⟨b, rfl, hback, hfirst⟩ := exists_of_quotes hq' hinside
        refine Or.inl ⟨_ ++ [q], b, by simp, rfl, hback, fun c hc => ?_, hfirst⟩
        rw [List.getLast?_concat] at hc
        exact (Option.some.inj hc).symm

namespace StartTag

variable {t : StartTag} {p : WrittenPiece} {l r : List WrittenPiece} {selfClosing : Bool}
  {front v back : Text} {q q' : Char}

/-- Behind an attribute an equals sign comes before the next quote. -/
theorem Tidy.onFrom_ne (h : t.Tidy) (hr : r ⊆ t.pieces) (hq : q = '"' ∨ q = '\'')
    (hv : '=' ∉ v) : t.onFrom selfClosing r ≠ v ++ q :: back := by
  intro heq
  have hquotes := h.toSpaced.quotes_onFrom hr selfClosing
  have hall : ∀ c ∈ v.map asSpace ++ [q], (c != '=') = true := by
    intro c hc
    rcases List.mem_append.mp hc with hc | hc
    · have hne : c ≠ '=' := by
        rintro rfl
        exact not_mem_asSpace hv (by decide) hc
      simpa using hne
    · rw [List.mem_singleton.mp hc]
      rcases hq with rfl | rfl <;> rfl
  have hflat : ValueSlot.flatten (v ++ q :: back) =
      (v.map asSpace ++ [q]) ++ back.map asSpace := by
    have hsign : asSpace q = q := gentle_asSpace.map_sign (by tauto)
    simp [flatten_eq_map, hsign]
  rw [heq, hflat, List.takeWhile_append_of_pos hall] at hquotes
  have hmem := hquotes q (by simp)
  rcases hq with rfl | rfl
  · exact hmem.1 rfl
  · exact hmem.2 rfl

theorem quote_ne (hq : q = '"' ∨ q = '\'') : isMarkupSpace q = false ∧ isSafeChar q = false := by
  rcases hq with rfl | rfl <;> exact ⟨rfl, rfl⟩

/-- There is no quote in an attribute before its value. -/
theorem not_mem_of_quote {m n : Text} (hp : p.Regular) (hm : MarkupSpaces m) (hn : MarkupSpaces n)
    (hq : q = '"' ∨ q = '\'') : q ∉ p.lead ++ (p.name ++ (m ++ '=' :: n)) := by
  obtain ⟨hspace, hsafe⟩ := quote_ne hq
  have hspaces : ∀ {s : Text}, MarkupSpaces s → q ∉ s := by
    intro s hs hmem
    rw [hs q hmem] at hspace
    cases hspace
  have hname : q ∉ p.name := by
    intro hmem
    rw [(isSafeName_iff.mp hp.name).2 q hmem] at hsafe
    cases hsafe
  have hequals : q ≠ '=' := by
    rcases hq with rfl | rfl <;> decide
  simp [hspaces hp.lead, hname, hspaces hm, hspaces hn, hequals]

/-- Where a value stands within the value of an attribute, between two quotes. -/
structure Within (selfClosing : Bool) (t : StartTag) (front v back : Text) (q : Char)
    (l : List WrittenPiece) (p : WrittenPiece) (r : List WrittenPiece) (a b : Text) : Prop where
  split : t.pieces = l ++ p :: r
  value : p.value = a ++ v ++ b
  opened : front ++ [q] =
    t.upTo l ++ (p.lead ++ (p.name ++ (p.assign ++ p.quote.toList))) ++ a
  closed : q :: back = b ++ (p.quote.toList ++ t.onFrom selfClosing r)
  last : ∀ c ∈ a.getLast?, c = q
  first : ∀ c ∈ b.head?, c = q

/-- There is no quote behind the attributes. -/
theorem Tidy.not_mem_closer (h : t.Tidy) (selfClosing : Bool) (hq : q = '"' ∨ q = '\'') :
    q ∉ t.onFrom selfClosing [] := by
  rw [onFrom, List.flatMap_nil, List.nil_append]
  intro hmem
  rcases List.mem_append.mp hmem with hmem | hmem
  · have hspace := h.regular.blanks q hmem
    rw [(quote_ne hq).1] at hspace
    cases hspace
  · cases selfClosing <;> rcases hq with rfl | rfl <;> simp [closer] at hmem

/-- There is no quote in the name of the element. -/
theorem Tidy.not_mem_name (h : t.Tidy) (hq : q = '"' ∨ q = '\'') : q ∉ t.upTo [] := by
  rw [upTo, List.flatMap_nil, List.append_nil]
  intro hmem
  rcases List.mem_cons.mp hmem with rfl | hmem
  · rcases hq with hq | hq <;> cases hq
  · have hsafe := (isSafeName_iff.mp h.regular.name).2 q hmem
    rw [(quote_ne hq).2] at hsafe
    cases hsafe

/-- What stands between two quotes behind the attributes `l` is a part of the value
of one of the attributes `r` that follow them. -/
theorem Tidy.exists_within_behind (h : t.Tidy) (hq : q = '"' ∨ q = '\'')
    (hv : ∀ c ∈ v, c ≠ '=' ∧ c ≠ '"' ∧ c ≠ '\'') {front' : Text} (hsplit : t.pieces = l ++ r)
    (hfront : t.upTo l ++ front' = front)
    (htext : t.onFrom selfClosing r = front' ++ q :: (v ++ q :: back)) :
    ∃ l p r a b, Within selfClosing t front v back q l p r a b := by
  have hequals : '=' ∉ v := fun hmem => (hv _ hmem).1 rfl
  have hnone : ∀ {c : Char}, c = '"' ∨ c = '\'' → c ∉ v := by
    rintro c (rfl | rfl) hmem
    · exact (hv _ hmem).2.1 rfl
    · exact (hv _ hmem).2.2 rfl
  induction r generalizing l front' with
  | nil =>
    refine absurd ?_ (h.not_mem_closer selfClosing hq)
    rw [htext]
    simp
  | cons p r ih =>
    have hp : p ∈ t.pieces := by simp [hsplit]
    have hr : r ⊆ t.pieces := (mem_of_split hsplit).2.2
    have hregular := h.regular.pieces p hp
    obtain ⟨m, n, q', hsource, hm, hn, hassign, hquote, hq', hvalue⟩ := hregular.exists_source
    have hstart : (p.lead ++ (p.name ++ (m ++ '=' :: n))) ++
        (q' :: (p.value ++ q' :: t.onFrom selfClosing r)) = front' ++ q :: (v ++ q :: back) := by
      rw [← htext]
      simp [onFrom, hsource]
    obtain ⟨inner, rfl, hinner⟩ :=
      exists_of_append_eq hstart (not_mem_of_quote hregular hm hn hq)
    rcases exists_of_quoted (hnone hq) (hnone hq') (h.onFrom_ne hr hq hequals) hinner with
      ⟨a, b, hp, hopened, hclosed, hlast, hfirst⟩ | ⟨inner, rfl, hrest⟩
    · refine ⟨l, p, r, a, b, hsplit, hp, ?_, ?_, hlast, hfirst⟩
      · rw [← hfront, hassign, hquote, List.append_assoc, List.append_assoc, hopened]
        simp
      · rw [hclosed, hquote]
        rfl
    · have hfront' : t.upTo (l ++ [p]) ++ inner = front := by
        rw [← hfront]
        simp [upTo, hsource]
      exact ih (by simp [hsplit]) hfront' hrest

/-- **What stands between two quotes without an equals sign is a part of a
value.** -/
theorem Tidy.exists_within (h : t.Tidy) (hq : q = '"' ∨ q = '\'')
    (hv : ∀ c ∈ v, c ≠ '=' ∧ c ≠ '"' ∧ c ≠ '\'')
    (htext : t.text selfClosing = front ++ q :: (v ++ q :: back)) :
    ∃ l p r a b, Within selfClosing t front v back q l p r a b := by
  rw [text_eq (l := []) rfl selfClosing] at htext
  obtain ⟨front', rfl, hrest⟩ := exists_of_append_eq htext (h.not_mem_name hq)
  exact h.exists_within_behind hq hv (l := []) rfl rfl hrest

/-- A tag in which the name of a state is spelled in another way. The name is all
of a value, or it stands between quotes in one. -/
structure Respelled (old new : Text) (t t' : StartTag) (l : List WrittenPiece) (p : WrittenPiece)
    (r : List WrittenPiece) (a v b : Text) : Prop where
  split : t.pieces = l ++ p :: r
  value : p.value = a ++ v ++ b
  spelled : trim v = old
  last : ∀ c ∈ a.getLast?, c = '"' ∨ c = '\''
  first : ∀ c ∈ b.head?, c = '"' ∨ c = '\''
  eq : t' = { t with pieces := l ++ { p with value := a ++ new ++ b } :: r }

/-- What is left of blanks around the name of a state has neither equals signs nor
quotes. -/
theorem ne_of_mem_of_trim {state : Text} (hstate : isStateName state = true) (hv : trim v = state)
    {c e : Char} (hc : c ∈ v) (hblank : isBlank e = false) (he : isStateChar e = false) : c ≠ e := by
  rintro rfl
  obtain ⟨x, y, heq, hx, hy, -⟩ := exists_eq_trim v
  rw [heq, hv, List.mem_append, List.mem_append] at hc
  rcases hc with (hc | hc) | hc
  · rw [hx c hc] at hblank
    cases hblank
  · rw [isStateChar_of_mem hstate hc] at he
    cases he
  · rw [hy c hc] at hblank
    cases hblank

/-- **Renaming a state where a search finds nothing else respells it in a value.** -/
theorem Tidy.exists_respelled {name old new tag : Text} (h : t.Tidy)
    (hold : isStateName old = true)
    (hrename : renameValue name old new (t.text selfClosing) = some tag) :
    ∃ t' l p r a v b, Respelled old new t t' l p r a v b ∧ tag = t'.text selfClosing := by
  rw [renameValue] at hrename
  cases hfind : ValueSlot.find? name (t.text selfClosing) with
  | none => simp [hfind] at hrename
  | some slot =>
    simp only [hfind, Option.bind_eq_bind, Option.bind_some] at hrename
    split at hrename
    · next htrim =>
      cases hrename
      obtain ⟨hsource, front, q, back, hq, hopened, hclosed⟩ := ValueSlot.enclosed_of_find? hfind
      have hv : ∀ c ∈ slot.value, c ≠ '=' ∧ c ≠ '"' ∧ c ≠ '\'' := fun c hc =>
        ⟨ne_of_mem_of_trim hold htrim hc rfl rfl, ne_of_mem_of_trim hold htrim hc rfl rfl,
          ne_of_mem_of_trim hold htrim hc rfl rfl⟩
      have htext : t.text selfClosing = front ++ q :: (slot.value ++ q :: back) := by
        rw [← hsource, ValueSlot.source, hopened, hclosed]
        simp
      obtain ⟨l, p, r, a, b, hwithin⟩ := h.exists_within hq hv htext
      have hquote : ∀ {c : Char}, c = q → c = '"' ∨ c = '\'' := fun hc => hc ▸ hq
      refine ⟨_, l, p, r, a, slot.value, b, ⟨hwithin.split, hwithin.value, htrim,
        fun c hc => hquote (hwithin.last c hc), fun c hc => hquote (hwithin.first c hc), rfl⟩, ?_⟩
      have hskipped := (h.regular.pieces p (mem_of_split hwithin.split).1).skipped
      rw [ValueSlot.replace, hopened, hclosed, hwithin.opened, hwithin.closed]
      simp [text, content, upTo, onFrom, WrittenPiece.source, WrittenPiece.extent,
        WrittenPiece.quoted, hskipped]
    · cases hrename

end StartTag

end SkinMarkup
