import Mathlib.Data.List.Infix
import SkinMarkup.Proofs.TagText.Found
import SkinMarkup.Proofs.Text.Template

/-!
# Tags with names in them

How a tag is taken apart does not depend on the names that stand in it: an
attribute is found at the same symbols of a template, whatever the names are
(`find?_fill`), and the attributes that are read are the same symbols too
(`ofText_fill`). Both hold of any text, well-formed or not.
-/

namespace SkinMarkup

namespace Template

open TemplateSymbol

/-! ## Tests that do not tell names apart -/

theorem isSpace_of_isStateChar {c : Char} (h : isStateChar c = true) : isSpace c = false := by
  have hplain := (plain_of_isNameChar (isNameChar_of_isStateChar h)).1
  simp only [Bool.or_eq_false_iff] at hplain
  exact hplain.1.1

theorem isLayout_of_isStateChar {c : Char} (h : isStateChar c = true) : isLayout c = false := by
  have hspace := isSpace_of_isStateChar h
  simp only [isSpace, Bool.or_eq_false_iff] at hspace
  simp [isLayout, hspace]

theorem level_isSpace : Level isSpace := by
  intro c hc
  rw [isSpace_of_isStateChar hc]
  rfl

theorem level_isLayout : Level isLayout := by
  intro c hc
  rw [isLayout_of_isStateChar hc]
  rfl

theorem level_not_endsName : Level (!TagText.endsName ·) := by
  intro c hc
  exact (TagText.not_endsName_of_isNameChar (isNameChar_of_isStateChar hc)).trans rfl

theorem level_ne {e : Char} (he : isStateChar e = false) : Level (· != e) := by
  have hne : ∀ c, isStateChar c = true → (c != e) = true := fun c hc => by
    simpa using ne_of_isStateChar hc he
  intro c hc
  exact (hne c hc).trans (hne 'a' rfl).symm

/-! ## The usual spelling of an attribute -/

variable {s : Template} {name : Text}

/-- The slot that a search finds in the texts of a template. -/
structure HasSlot (find : Names → Option ValueSlot) (s before lead value after : Template) :
    Prop where
  source : s = before ++ lead ++ value ++ after
  opened : Opened value
  space : ∃ c, isSpace c = true ∧ char c ∈ lead
  find_eq : ∀ names, find names =
    some ⟨fill names before, fill names lead, fill names value, fill names after⟩

/-- A search that finds the same part of a template, if any, whatever the names
are. -/
def FindsSlot (find : Names → Option ValueSlot) (s : Template) : Prop :=
  (∀ names, find names = none) ∨ ∃ before lead value after, HasSlot find s before lead value after

/-- A word that is a plain name between a space and one more character can be
searched for. -/
theorem spelled_of_isStateName (hname : isStateName name = true) (ending : Text)
    (hending : ∀ c ∈ ending.dropLast, isSign c = false) (hne : ending ≠ []) :
    Spelled (' ' :: name ++ ending) := by
  refine ⟨rfl, fun c hc => ?_⟩
  rw [List.dropLast_append_of_ne_nil hne, List.cons_append, List.mem_cons, List.mem_append] at hc
  rcases hc with rfl | hc | hc
  · rfl
  · refine Bool.eq_false_iff.mpr fun hsign => ?_
    cases (isStateChar_of_isSign hsign).symm.trans (isStateChar_of_mem hname hc)
  · exact hending c hc

theorem jointed_of_append {u v : Template} (h : Jointed (u ++ v)) : Jointed u ∧ Jointed v :=
  ⟨List.IsChain.left_of_append h, List.IsChain.right_of_append h⟩

theorem quote_isSign {q : Char} (hq : q = '"' ∨ q = '\'') : isSign q = true := by
  rcases hq with rfl | rfl <;> rfl

theorem ofOpener_fill {q : Char} (hq : q = '"' ∨ q = '\'') {u v : Template}
    (hs : Jointed (u ++ ((ValueSlot.opener name q).map char ++ v))) :
    FindsSlot (fun names => ValueSlot.ofOpener name q (fill names u) (fill names v))
      (u ++ ((ValueSlot.opener name q).map char ++ v)) := by
  have hsign := quote_isSign hq
  rcases cutAt_fill (isStateChar_of_isSign hsign) v with hnone | ⟨value, rest, rfl, hsome⟩
  · exact Or.inl fun names => by simp [ValueSlot.ofOpener, hnone]
  · refine Or.inr ⟨dropEndWhile isLayout u,
      takeEndWhile isLayout u ++ (ValueSlot.opener name q).map char, value, char q :: rest,
      ?_, ?_, ⟨' ', rfl, by simp [ValueSlot.opener]⟩, fun names => ?_⟩
    · rw [← List.append_assoc (dropEndWhile isLayout u), dropEndWhile_append_takeEndWhile]
      simp
    · have hquote : Jointed (char q :: value ++ char q :: rest) := by
        have hsplit : u ++ ((ValueSlot.opener name q).map char ++ (value ++ char q :: rest)) =
            (u ++ (' ' :: name ++ ['=']).map char) ++ (char q :: value ++ char q :: rest) := by
          simp [ValueSlot.opener]
        rw [hsplit] at hs
        exact (jointed_of_append hs).2
      exact opened_of_isSign hsign (jointed_of_append hquote).1
    · rw [ValueSlot.ofOpener, hsome, Option.map_some, dropEndWhile_fill level_isLayout,
        takeEndWhile_fill level_isLayout]
      simp

/-! ## Any other spelling -/

/-- A template with every blank as a space. -/
def flatten (s : Template) : Template :=
  s.map fun
    | char c => char (asSpace c)
    | hole i => hole i

theorem asSpace_of_isStateChar {c : Char} (h : isStateChar c = true) : asSpace c = c :=
  gentle_asSpace.fixed c (isLayout_of_isStateChar h)

theorem map_asSpace_fill (names : Names) (s : Template) :
    (fill names s).map asSpace = fill names (flatten s) := by
  induction s with
  | nil => rfl
  | cons x xs ih =>
    cases x with
    | char c =>
      rw [fill_char_cons, List.map_cons, ih]
      rfl
    | hole i =>
      have hname : (names i).val.map asSpace = (names i).val := by
        conv => rhs; rw [← List.map_id (names i).val]
        exact List.map_congr_left fun c hc => asSpace_of_isStateChar ((names i).isStateChar hc)
      rw [fill_hole_cons, List.map_append, ih, hname]
      rfl

theorem length_fill_flatten (names : Names) (s : Template) :
    (fill names (flatten s)).length = (fill names s).length := by
  rw [← map_asSpace_fill, List.length_map]

theorem asSpace_eq_iff {c q : Char} (hq : q ≠ ' ') (hlayout : isLayout q = false) :
    asSpace c = q ↔ c = q := by
  constructor
  · intro h
    rw [asSpace] at h
    split at h
    · exact absurd h.symm hq
    · exact h
  · rintro rfl
    exact gentle_asSpace.fixed c hlayout

theorem isSign_asSpace (c : Char) : isSign (asSpace c) = isSign c := by
  rw [asSpace]
  split
  · next h =>
    simp only [isLayout, Bool.or_eq_true, beq_iff_eq] at h
    rcases h with ((rfl | rfl) | rfl) | rfl <;> rfl
  · rfl

theorem isStateChar_asSpace {c : Char} (h : isStateChar c = false) :
    isStateChar (asSpace c) = false := by
  rw [asSpace]
  split
  · rfl
  · exact h

theorem jointed_flatten (h : Jointed s) : Jointed (flatten s) := by
  refine List.isChain_map_of_isChain _ (fun x y hxy => ?_) h
  cases x with
  | char c =>
    cases y with
    | char d => exact fun hsign => isStateChar_asSpace (hxy (by rwa [isSign_asSpace] at hsign))
    | hole j =>
      have hsign : isSign c = true := hxy
      exact (isSign_asSpace c).trans hsign
  | hole i =>
    cases y with
    | char d => exact isStateChar_asSpace hxy
    | hole j => exact hxy

theorem flatten_eq_append {s u v : Template} (h : flatten s = u ++ v) :
    ∃ u' v', s = u' ++ v' ∧ flatten u' = u ∧ flatten v' = v :=
  List.map_eq_append_iff.mp h

theorem flatten_eq_char_cons {s v : Template} {c : Char} (h : flatten s = char c :: v) :
    ∃ d v', s = char d :: v' ∧ asSpace d = c ∧ flatten v' = v := by
  obtain ⟨x, v', rfl, hx, hv⟩ := List.map_eq_cons_iff.mp h
  cases x with
  | char d =>
    cases hx
    exact ⟨d, v', rfl, rfl, hv⟩
  | hole i => cases hx

/-- Where the attribute is found that is written with more blanks. -/
theorem locate_fill (hname : isStateName name = true) {f : Template} (hf : Jointed f) :
    (∀ names, ValueSlot.locate name (fill names f) = none) ∨
      ∃ u m v, f = u ++ (char ' ' :: m ++ v) ∧ ∀ names,
        ValueSlot.locate name (fill names f) =
          some ((fill names u).length, (fill names (u ++ char ' ' :: m)).length) := by
  have hequals : Spelled (' ' :: name ++ ['=']) :=
    spelled_of_isStateName hname ['='] (by simp) (List.cons_ne_nil _ _)
  have hblank : Spelled (' ' :: name ++ [' ']) :=
    spelled_of_isStateName hname [' '] (by simp) (List.cons_ne_nil _ _)
  rcases cutAtWord_fill hequals hf with hnone | ⟨u, v, rfl, hsome⟩
  · rcases cutAtWord_fill hblank hf with hnone' | ⟨u, v, rfl, hsome⟩
    · refine Or.inl fun names => ?_
      rw [ValueSlot.locate, hnone, hnone']
      rfl
    · have hdrop : ∀ names, (fill names (u ++ ((' ' :: name ++ [' ']).map char ++ v))).drop
          (fill names u).length = fill names ((' ' :: name ++ [' ']).map char ++ v) := by
        intro names
        rw [fill_append, List.drop_left]
      have hequalsSign : isStateChar '=' = false := rfl
      rcases cutAt_fill hequalsSign ((' ' :: name ++ [' ']).map char ++ v) with
        hmiss | ⟨middle, rest, hsplit, hcut⟩
      · refine Or.inl fun names => ?_
        rw [ValueSlot.locate, hnone, hsome]
        simp only [bind, Option.bind, hdrop, hmiss]
      · -- The attribute starts with its space, so the equals sign comes later.
        obtain ⟨m, rfl⟩ : ∃ m, middle = char ' ' :: m := by
          cases middle with
          | nil => cases hsplit
          | cons x xs => exact ⟨xs, by rw [(List.cons.inj hsplit).1]⟩
        refine Or.inr ⟨u, m ++ [char '='], rest, by rw [hsplit]; simp, fun names => ?_⟩
        rw [ValueSlot.locate, hnone, hsome]
        simp only [bind, Option.bind, hdrop, hcut]
        simp [Nat.add_assoc]
  · refine Or.inr ⟨u, (name ++ ['=']).map char, v, by simp, fun names => ?_⟩
    rw [ValueSlot.locate, hsome]
    simp [Nat.add_assoc]

/-- Where the value stands behind the equals sign. -/
theorem measure_fill (g : Template) :
    (∀ names, ValueSlot.measure (fill names g) = none) ∨
      ∃ pad q value rest, (q = '"' ∨ q = '\'') ∧
        g = pad ++ char q :: (value ++ char q :: rest) ∧ ∀ names,
        ValueSlot.measure (fill names g) =
          some ((fill names pad).length + 1, (fill names value).length) := by
  set r : Template := g.takeWhile (lift (· != '=')) with hr
  have htake : ∀ names, (fill names g).takeWhile (· != '=') = fill names r :=
    fun names => takeWhile_fill (level_ne rfl)
  obtain ⟨q, hq, hquote⟩ : ∃ q : Char, (q = '"' ∨ q = '\'') ∧ ∀ names : Names,
      (if (fill names r).contains '"' then '"' else '\'') = q := by
    by_cases hmem : char '"' ∈ r
    · refine ⟨'"', Or.inl rfl, fun names => if_pos ?_⟩
      simpa using (mem_fill rfl).mpr hmem
    · refine ⟨'\'', Or.inr rfl, fun names => if_neg ?_⟩
      simpa using mt (mem_fill rfl).mp hmem
  have hchar := isStateChar_of_isSign (quote_isSign hq)
  rcases cutAt_fill hchar r with hnone | ⟨pad, more, hsplit, hsome⟩
  · refine Or.inl fun names => ?_
    simp only [ValueSlot.measure, htake, hquote, hnone]
    rfl
  · rcases cutAtLast_fill hchar more with hlast | ⟨value, near, rfl, hlast⟩
    · refine Or.inl fun names => ?_
      simp only [ValueSlot.measure, htake, hquote, hsome, bind, Option.bind, hlast]
    · refine Or.inr ⟨pad, q, value, near ++ g.dropWhile (lift (· != '=')), hq, ?_, fun names => ?_⟩
      · conv => lhs; rw [← List.takeWhile_append_dropWhile (p := lift (· != '=')) (l := g), ← hr,
          hsplit]
        simp
      · simp only [ValueSlot.measure, htake, hquote, hsome, bind, Option.bind, hlast]
        rfl

/-- A slot that is given by numbers of characters. -/
theorem slot_of_lengths (a b c d : Text) :
    (⟨(a ++ b ++ c ++ d).take a.length, ((a ++ b ++ c ++ d).take (a ++ b).length).drop a.length,
      ((a ++ b ++ c ++ d).drop (a ++ b).length).take c.length,
      (a ++ b ++ c ++ d).drop ((a ++ b).length + c.length)⟩ : ValueSlot) = ⟨a, b, c, d⟩ := by
  have hfirst : (a ++ b ++ c ++ d).take a.length = a := by
    rw [List.append_assoc, List.append_assoc, List.take_left]
  have hlead : (a ++ b ++ c ++ d).take (a ++ b).length = a ++ b := by
    rw [List.append_assoc, List.take_left]
  have hvalue : (a ++ b ++ c ++ d).drop (a ++ b).length = c ++ d := by
    rw [List.append_assoc, List.drop_left]
  rw [hfirst, hlead, ← List.drop_drop, hvalue, List.drop_left, List.take_left, List.drop_left]

/-- A slot of a flattened template stands in the template, with other blanks. -/
theorem exists_slot_of_flatten {s u m pad value rest : Template} {q : Char}
    (hq : q = '"' ∨ q = '\'')
    (h : flatten s = u ++ (char ' ' :: m ++ (pad ++ char q :: (value ++ char q :: rest)))) :
    ∃ before blank middle pad' value' rest',
      s = before ++ (char blank :: middle ++ (pad' ++ [char q])) ++ value' ++ (char q :: rest') ∧
        asSpace blank = ' ' ∧ flatten before = u ∧ flatten middle = m ∧ flatten pad' = pad ∧
        flatten value' = value := by
  have hasSpace : ∀ c, asSpace c = q → c = q := by
    intro c hc
    rcases hq with rfl | rfl
    · exact (asSpace_eq_iff (by decide) rfl).mp hc
    · exact (asSpace_eq_iff (by decide) rfl).mp hc
  obtain ⟨before, s₁, rfl, hbefore, h₁⟩ := flatten_eq_append h
  obtain ⟨front, s₂, rfl, hfront, h₂⟩ := flatten_eq_append h₁
  obtain ⟨blank, middle, rfl, hblank, hmiddle⟩ := flatten_eq_char_cons hfront
  obtain ⟨pad', s₃, rfl, hpad, h₃⟩ := flatten_eq_append h₂
  obtain ⟨q₁, s₄, rfl, hq₁, h₄⟩ := flatten_eq_char_cons h₃
  obtain ⟨value', s₅, rfl, hvalue, h₅⟩ := flatten_eq_append h₄
  obtain ⟨q₂, rest', rfl, hq₂, -⟩ := flatten_eq_char_cons h₅
  obtain rfl := hasSpace q₁ hq₁
  obtain rfl := hasSpace q₂ hq₂
  exact ⟨before, blank, middle, pad', value', rest', by simp, hblank, hbefore, hmiddle, hpad, hvalue⟩

theorem isSpace_of_asSpace {c : Char} (h : asSpace c = ' ') : isSpace c = true := by
  rw [asSpace] at h
  split at h
  · next hlayout =>
    simp only [isLayout, Bool.or_eq_true] at hlayout
    rcases hlayout with ((h | h) | h) | h <;> simp [isSpace, h]
  · rw [h]
    rfl

theorem findRelaxed_fill (hname : isStateName name = true) (hs : Jointed s) :
    FindsSlot (fun names => ValueSlot.findRelaxed name (fill names s)) s := by
  have hflat : ∀ names, ValueSlot.flatten (fill names s) = fill names (flatten s) :=
    fun names => map_asSpace_fill names s
  rcases locate_fill hname (jointed_flatten hs) with hnone | ⟨u, m, v, hsplit, hlocate⟩
  · refine Or.inl fun names => ?_
    simp only [ValueSlot.findRelaxed, hflat, hnone]
    rfl
  have hdrop : ∀ names, (fill names (flatten s)).drop (fill names (u ++ char ' ' :: m)).length =
      fill names v := by
    intro names
    have hfill : fill names (flatten s) = fill names (u ++ char ' ' :: m) ++ fill names v := by
      rw [hsplit, ← List.append_assoc, fill_append]
    rw [hfill, List.drop_left]
  rcases measure_fill v with hnone | ⟨pad, q, value, rest, hq, hv, hmeasure⟩
  · refine Or.inl fun names => ?_
    simp only [ValueSlot.findRelaxed, hflat, hlocate, bind, Option.bind, hdrop, hnone]
  rw [hv] at hsplit
  obtain ⟨before, blank, middle, pad', value', rest', hsource, hblank, rfl, rfl, rfl, rfl⟩ :=
    exists_slot_of_flatten hq hsplit
  refine Or.inr ⟨before, char blank :: middle ++ (pad' ++ [char q]), value', char q :: rest',
    hsource, ?_, ⟨blank, isSpace_of_asSpace hblank, List.mem_append_left _ List.mem_cons_self⟩,
    fun names => ?_⟩
  · have hjoint : Jointed (char q :: value' ++ char q :: rest') := by
      have hquote : s = (before ++ (char blank :: middle ++ pad')) ++
          (char q :: value' ++ char q :: rest') := by
        rw [hsource]
        simp
      rw [hquote] at hs
      exact (jointed_of_append hs).2
    exact opened_of_isSign (quote_isSign hq) (jointed_of_append hjoint).1
  · have hstart : (fill names (flatten before)).length = (fill names before).length :=
      length_fill_flatten names before
    have hlead : (fill names (flatten before ++ char ' ' :: flatten middle)).length +
        ((fill names (flatten pad')).length + 1) =
          (fill names before ++ fill names (char blank :: middle ++ (pad' ++ [char q]))).length := by
      simp only [fill_append, fill_char_cons, fill_nil, List.length_append, List.length_cons,
        List.length_nil, length_fill_flatten]
      omega
    have hvalue := length_fill_flatten names value'
    simp only [ValueSlot.findRelaxed, hflat, hlocate, bind, Option.bind, hdrop, hmeasure, hstart,
      hlead, hvalue]
    rw [hsource, fill_append, fill_append, fill_append]
    exact congrArg some (slot_of_lengths _ _ _ _)

/-- **The value of an attribute is found at the same symbols, whatever the names
are.** -/
theorem find?_fill (hname : isStateName name = true) (hs : Jointed s) :
    FindsSlot (fun names => ValueSlot.find? name (fill names s)) s := by
  have hopener : ∀ q, Spelled (ValueSlot.opener name q) := fun q =>
    spelled_of_isStateName hname ['=', q] (fun c hc => List.mem_singleton.mp hc ▸ rfl)
      (List.cons_ne_nil _ _)
  rcases cutAtWord_fill (hopener '"') hs with hnone | ⟨u, v, rfl, hsome⟩
  · rcases cutAtWord_fill (hopener '\'') hs with hnone' | ⟨u, v, rfl, hsome⟩
    · simp only [ValueSlot.find?, hnone, hnone']
      exact findRelaxed_fill hname hs
    · simp only [ValueSlot.find?, hnone, hsome]
      exact ofOpener_fill (Or.inr rfl) hs
  · simp only [ValueSlot.find?, hsome]
    exact ofOpener_fill (Or.inl rfl) hs

/-! ## What stands behind the name of a tag -/

/-- The part of a template from its first blank on. -/
def late (s : Template) : Template :=
  s.dropWhile (lift (!isSpace ·))

theorem holes_subset_late {u v : Template} (hs : s = u ++ v)
    (hspace : ∃ c, isSpace c = true ∧ char c ∈ u) : holes v ⊆ holes (late s) := by
  obtain ⟨c, hc, hmem⟩ := hspace
  obtain ⟨a, b, rfl⟩ := List.append_of_mem hmem
  have hsuffix : char c :: (b ++ v) <:+ late s := by
    have hsource : s = a ++ char c :: (b ++ v) := by rw [hs, List.append_assoc, List.cons_append]
    rw [hsource, late]
    clear hs hmem hsource
    induction a with
    | nil =>
      rw [List.nil_append, List.dropWhile_cons_of_neg (by simp [lift, hc])]
    | cons x xs ih =>
      rw [List.cons_append]
      by_cases hx : lift (!isSpace ·) x = true
      · rw [List.dropWhile_cons_of_pos hx]
        exact ih
      · rw [List.dropWhile_cons_of_neg hx]
        exact (List.suffix_append xs _).trans (List.suffix_cons x _)
  intro i hi
  rw [mem_holes] at hi ⊢
  exact hsuffix.subset (List.mem_cons_of_mem _ (List.mem_append_right b hi))

theorem head?_fill_eq_some_iff {names : Names} {e : Char} (he : isStateChar e = false) :
    (fill names s).head? = some e ↔ s.head? = some (char e) := by
  cases s with
  | nil => simp
  | cons x xs =>
    cases x with
    | char c => simp
    | hole i =>
      obtain ⟨c, cs, hname⟩ := List.exists_cons_of_ne_nil (names i).ne_nil
      have hc : c ≠ e :=
        ne_of_isStateChar ((names i).isStateChar (hname ▸ List.mem_cons_self)) he
      simp [hname, hc]

end Template

/-! ## The attributes of a tag -/

open Template TemplateSymbol

/-- An attribute with names in it. -/
structure PieceTemplate where
  skipped : Template
  lead : Template
  name : Template
  assign : Template
  value : Template
  quote : Option Char

namespace PieceTemplate

def fill (names : Names) (p : PieceTemplate) : WrittenPiece :=
  ⟨p.skipped.fill names, p.lead.fill names, p.name.fill names, p.assign.fill names,
    p.value.fill names, p.quote⟩

/-- The value with its quotes. -/
def quoted (p : PieceTemplate) : Template :=
  p.quote.toList.map char ++ p.value ++ p.quote.toList.map char

def source (p : PieceTemplate) : Template :=
  p.skipped ++ p.lead ++ p.name ++ (p.assign ++ p.quoted)

end PieceTemplate

/-- What the attribute part of a tag with names in it starts with. -/
inductive StepTemplate where
  | stop
  | valueless (read rest : Template)
  | piece (piece : PieceTemplate) (rest : Template)

namespace StepTemplate

def fill (names : Names) : StepTemplate → TagText.Step
  | stop => .stop
  | valueless read rest => .valueless (read.fill names) (rest.fill names)
  | piece p rest => .piece (p.fill names) (rest.fill names)

/-- What is read and the rest are the template. -/
def Divides (s : Template) : StepTemplate → Prop
  | stop => True
  | valueless read rest => read ++ rest = s
  | piece p rest => p.skipped = [] ∧ p.source ++ rest = s

end StepTemplate

namespace TagText

variable {s : Template}

theorem bareValue_append_of_isStateChar {w : Text} (hw : ∀ c ∈ w, isStateChar c = true) (t : Text) :
    bareValue (w ++ t) = (w ++ (bareValue t).1, (bareValue t).2) := by
  induction w with
  | nil => rfl
  | cons c cs ih =>
    have hc := hw c List.mem_cons_self
    have hstop : (isSpace c || c == '>' || (c == '/' && (cs ++ t).head? == some '>')) = false := by
      have hplain := (plain_of_isNameChar (isNameChar_of_isStateChar hc)).1
      simp only [Bool.or_eq_false_iff] at hplain
      simp [hplain]
    rw [List.cons_append, bareValue, hstop]
    simp [ih fun c hc => hw c (List.mem_cons_of_mem _ hc)]

theorem bareValue_fill (s : Template) :
    ∃ u v, s = u ++ v ∧ ∀ names, bareValue (s.fill names) = (u.fill names, v.fill names) := by
  induction s with
  | nil => exact ⟨[], [], rfl, fun names => rfl⟩
  | cons x xs ih =>
    obtain ⟨u, v, rfl, hbare⟩ := ih
    cases x with
    | hole i =>
      refine ⟨hole i :: u, v, rfl, fun names => ?_⟩
      rw [fill_hole_cons, bareValue_append_of_isStateChar fun c hc => (names i).isStateChar hc,
        hbare]
      rfl
    | char c =>
      have hclose : ∀ names : Names, (Template.fill names (u ++ v)).head? = some '>' ↔
          (u ++ v).head? = some (char '>') := fun names => head?_fill_eq_some_iff rfl
      by_cases hstop : isSpace c = true ∨ c = '>' ∨ c = '/' ∧ (u ++ v).head? = some (char '>')
      · refine ⟨[], char c :: (u ++ v), rfl, fun names => ?_⟩
        rw [← hclose names] at hstop
        rw [fill_char_cons, bareValue, if_pos (by simpa [or_assoc] using hstop)]
        rfl
      · refine ⟨char c :: u, v, rfl, fun names => ?_⟩
        rw [← hclose names] at hstop
        rw [fill_char_cons, bareValue, if_neg (by simpa [or_assoc] using hstop), hbare]
        rfl

theorem stepValue_of_bare {lead name assign t : Text} {c : Char} (ht : t.head? = some c)
    (hc : c ≠ '"' ∧ c ≠ '\'') :
    stepValue lead name assign t =
      .piece ⟨[], lead, name, assign, (bareValue t).1, none⟩ (bareValue t).2 := by
  obtain ⟨cs, rfl⟩ := List.head?_eq_some_iff.mp ht
  rw [stepValue, if_neg (by simp [hc])]

/-- A value that does not start with a quote is bare. -/
theorem stepValue_fill_of_bare (lead name assign : Template) {t : Template}
    (hfirst : ∀ names, ∃ c, (t.fill names).head? = some c ∧ c ≠ '"' ∧ c ≠ '\'') :
    ∃ st : StepTemplate, st.Divides (lead ++ name ++ assign ++ t) ∧ ∀ names,
      stepValue (lead.fill names) (name.fill names) (assign.fill names) (t.fill names) =
        st.fill names := by
  obtain ⟨value, rest, rfl, hvalue⟩ := bareValue_fill t
  refine ⟨.piece ⟨[], lead, name, assign, value, none⟩ rest, ⟨rfl, ?_⟩, fun names => ?_⟩
  · simp [PieceTemplate.source, PieceTemplate.quoted]
  · obtain ⟨c, hhead, hc⟩ := hfirst names
    rw [stepValue_of_bare hhead hc, hvalue]
    rfl

theorem stepValue_fill (lead name assign t : Template) :
    ∃ st : StepTemplate, st.Divides (lead ++ name ++ assign ++ t) ∧ ∀ names,
      stepValue (lead.fill names) (name.fill names) (assign.fill names) (t.fill names) =
        st.fill names := by
  cases t with
  | nil => exact ⟨.stop, trivial, fun names => rfl⟩
  | cons x xs =>
    cases x with
    | hole i =>
      refine stepValue_fill_of_bare lead name assign fun names => ?_
      obtain ⟨c, cs, hname⟩ := List.exists_cons_of_ne_nil (names i).ne_nil
      have hc := (names i).isStateChar (hname ▸ List.mem_cons_self)
      exact ⟨c, by simp [hname], ne_of_isStateChar hc rfl, ne_of_isStateChar hc rfl⟩
    | char c =>
      by_cases hc : c = '"' ∨ c = '\''
      · have hsign := isStateChar_of_isSign (quote_isSign hc)
        rcases cutAt_fill hsign xs with hnone | ⟨value, rest, rfl, hsome⟩
        · refine ⟨.stop, trivial, fun names => ?_⟩
          rw [fill_char_cons, stepValue, if_pos hc, hnone]
          rfl
        · refine ⟨.piece ⟨[], lead, name, assign, value, some c⟩ rest, ⟨rfl, ?_⟩, fun names => ?_⟩
          · simp [PieceTemplate.source, PieceTemplate.quoted]
          · rw [fill_char_cons, stepValue, if_pos hc, hsome]
            rfl
      · exact stepValue_fill_of_bare lead name assign fun names => ⟨c, rfl, not_or.mp hc⟩

theorem stepName_of_head? {lead name t : Text} {c : Char}
    (ht : (t.dropWhile isSpace).head? = some c) (hc : c ≠ '=') :
    stepName lead name t =
      .valueless (lead ++ name ++ t.takeWhile isSpace) (t.dropWhile isSpace) := by
  obtain ⟨cs, hcs⟩ := List.head?_eq_some_iff.mp ht
  rw [stepName]
  simp only [hcs, if_neg hc]

/-- A name behind which no equals sign comes has no value. -/
theorem stepName_fill_of_valueless (lead name : Template) {t : Template}
    (hfirst : ∀ names, ∀ c ∈ (Template.fill names (t.dropWhile (lift isSpace))).head?, c ≠ '=') :
    ∃ st : StepTemplate, st.Divides (lead ++ name ++ t) ∧ ∀ names,
      stepName (lead.fill names) (name.fill names) (t.fill names) = st.fill names := by
  set pad : Template := t.takeWhile (lift isSpace)
  set behind : Template := t.dropWhile (lift isSpace)
  have htake : ∀ names, (t.fill names).takeWhile isSpace = pad.fill names :=
    fun names => takeWhile_fill level_isSpace
  have hdrop : ∀ names, (t.fill names).dropWhile isSpace = behind.fill names :=
    fun names => dropWhile_fill level_isSpace
  have hsplit : pad ++ behind = t := List.takeWhile_append_dropWhile
  refine ⟨.valueless (lead ++ name ++ pad) behind, ?_, fun names => ?_⟩
  · rw [StepTemplate.Divides, List.append_assoc _ pad, hsplit]
  · cases hhead : (behind.fill names).head? with
    | none =>
      have hnil := List.head?_eq_none_iff.mp hhead
      rw [stepName]
      simp only [hdrop, hnil, htake]
      rw [fill_eq_nil_iff] at hnil
      simp [StepTemplate.fill, hnil]
    | some c =>
      rw [stepName_of_head? (by rw [hdrop, hhead]) (hfirst names c hhead), htake, hdrop]
      simp [StepTemplate.fill]

/-- A name behind which an equals sign comes has a value. -/
theorem stepName_fill_of_equals (lead name : Template) {t more : Template}
    (hequals : t.dropWhile (lift isSpace) = char '=' :: more) :
    ∃ st : StepTemplate, st.Divides (lead ++ name ++ t) ∧ ∀ names,
      stepName (lead.fill names) (name.fill names) (t.fill names) = st.fill names := by
  have hsplit := List.takeWhile_append_dropWhile (p := lift isSpace) (l := t)
  rw [hequals] at hsplit
  obtain ⟨st, hst, hvalue⟩ := stepValue_fill lead name
    (t.takeWhile (lift isSpace) ++ char '=' :: more.takeWhile (lift isSpace))
    (more.dropWhile (lift isSpace))
  refine ⟨st, ?_, fun names => ?_⟩
  · rw [← hsplit]
    simpa [List.takeWhile_append_dropWhile] using hst
  · rw [stepName]
    simp only [dropWhile_fill level_isSpace, hequals, fill_char_cons, if_pos,
      takeWhile_fill level_isSpace]
    rw [← hvalue]
    simp

theorem stepName_fill (lead name t : Template) :
    ∃ st : StepTemplate, st.Divides (lead ++ name ++ t) ∧ ∀ names,
      stepName (lead.fill names) (name.fill names) (t.fill names) = st.fill names := by
  cases hrest : t.dropWhile (lift isSpace) with
  | nil =>
    refine stepName_fill_of_valueless lead name fun names c hc => ?_
    rw [hrest] at hc
    cases hc
  | cons x xs =>
    cases x with
    | hole i =>
      refine stepName_fill_of_valueless lead name fun names c hc => ?_
      rw [hrest] at hc
      rintro rfl
      rw [Option.mem_def, head?_fill_eq_some_iff rfl] at hc
      cases hc
    | char c =>
      by_cases hc : c = '='
      · exact stepName_fill_of_equals lead name (hc ▸ hrest)
      · refine stepName_fill_of_valueless lead name fun names d hd => ?_
        rw [hrest] at hd
        cases hd
        exact hc

/-- **The next attribute is the same symbols, whatever the names are.** -/
theorem step_fill (s : Template) :
    ∃ st : StepTemplate, st.Divides s ∧ ∀ names, step (s.fill names) = st.fill names := by
  set lead : Template := s.takeWhile (lift isSpace) with hlead
  set rest : Template := s.dropWhile (lift isSpace) with hrest
  have htake : ∀ names, (s.fill names).takeWhile isSpace = lead.fill names :=
    fun names => takeWhile_fill level_isSpace
  have hdrop : ∀ names, (s.fill names).dropWhile isSpace = Template.fill names rest :=
    fun names => dropWhile_fill level_isSpace
  have hname : ∀ names, (Template.fill names rest).takeWhile (!endsName ·) =
      Template.fill names (rest.takeWhile (lift (!endsName ·))) :=
    fun names => takeWhile_fill level_not_endsName
  have hafter : ∀ names, (Template.fill names rest).dropWhile (!endsName ·) =
      Template.fill names (rest.dropWhile (lift (!endsName ·))) :=
    fun names => dropWhile_fill level_not_endsName
  have hstep : ∀ names, step (s.fill names) =
      if rest.takeWhile (lift (!endsName ·)) = [] ∨ rest.head? = some (char '?') then .stop
      else stepName (lead.fill names) (Template.fill names (rest.takeWhile (lift (!endsName ·))))
        (Template.fill names (rest.dropWhile (lift (!endsName ·)))) := by
    intro names
    rw [step]
    simp only [htake, hdrop, hname, hafter, fill_eq_nil_iff,
      head?_fill_eq_some_iff (e := '?') rfl]
  by_cases hstop : rest.takeWhile (lift (!endsName ·)) = [] ∨ rest.head? = some (char '?')
  · exact ⟨.stop, trivial, fun names => by rw [hstep, if_pos hstop]; rfl⟩
  · obtain ⟨st, hst, hfill⟩ := stepName_fill lead (rest.takeWhile (lift (!endsName ·)))
      (rest.dropWhile (lift (!endsName ·)))
    refine ⟨st, ?_, fun names => by rw [hstep, if_neg hstop, hfill]⟩
    rwa [List.append_assoc, List.takeWhile_append_dropWhile, hrest, hlead,
      List.takeWhile_append_dropWhile] at hst

theorem readPieces_fill (skipped s : Template) :
    ∃ (pieces : List PieceTemplate) (tail : Template),
      pieces.flatMap PieceTemplate.source ++ tail = skipped ++ s ∧
      ∀ names, readPieces (skipped.fill names) (s.fill names) =
        (pieces.map (PieceTemplate.fill names), tail.fill names) := by
  induction hlength : s.length using Nat.strong_induction_on generalizing skipped s with
  | _ length ih =>
    subst hlength
    obtain ⟨st, hst, hstep⟩ := step_fill s
    let anyNames : Names := fun _ => ⟨['a'], rfl⟩
    cases st with
    | stop =>
      refine ⟨[], skipped ++ s, rfl, fun names => ?_⟩
      rw [readPieces_of_stop (hstep names), fill_append]
      rfl
    | valueless read rest =>
      have hread : read ≠ [] := by
        rintro rfl
        have hlt := length_of_step_valueless (hstep anyNames)
        rw [← hst] at hlt
        exact absurd hlt (lt_irrefl _)
      have hshort : rest.length < s.length := by
        have := List.length_pos_iff.mpr hread
        rw [← hst, List.length_append]
        omega
      obtain ⟨pieces, tail, hsource, hpieces⟩ := ih rest.length hshort (skipped ++ read) rest rfl
      refine ⟨pieces, tail, by rw [hsource, List.append_assoc, hst], fun names => ?_⟩
      rw [readPieces_of_valueless (hstep names), ← fill_append, hpieces]
    | piece p rest =>
      have hp : p.source ≠ [] := by
        intro hnil
        have hlt := length_of_step_piece (hstep anyNames)
        rw [← hst.2, hnil] at hlt
        exact absurd hlt (lt_irrefl _)
      have hshort : rest.length < s.length := by
        have := List.length_pos_iff.mpr hp
        rw [← hst.2, List.length_append]
        omega
      obtain ⟨pieces, tail, hsource, hpieces⟩ := ih rest.length hshort [] rest rfl
      refine ⟨{ p with skipped } :: pieces, tail, ?_, fun names => ?_⟩
      · rw [List.flatMap_cons, List.append_assoc, hsource, List.nil_append, ← hst.2]
        simp [PieceTemplate.source, PieceTemplate.quoted, hst.1]
      · have hrest := hpieces names
        rw [fill_nil] at hrest
        rw [readPieces_of_piece (hstep names), hrest]
        rfl

/-- **The attributes of a tag are the same symbols, whatever the names are.** They
start behind a blank. -/
theorem ofText_fill (s : Template) :
    ∃ (head : Template) (pieces : List PieceTemplate) (tail : Template),
      s = head ++ (pieces.flatMap PieceTemplate.source ++ tail) ∧
      (pieces ≠ [] → ∃ c v, isSpace c = true ∧
        pieces.flatMap PieceTemplate.source ++ tail = char c :: v) ∧
      ∀ names, ofText (s.fill names) =
        ⟨head.fill names, pieces.map (PieceTemplate.fill names), tail.fill names⟩ := by
  by_cases hfirst : s.head? = some (char '<')
  · obtain ⟨cs, rfl⟩ := List.head?_eq_some_iff.mp hfirst
    set rest : Template := cs.dropWhile (lift (!endsName ·)) with hrest
    have hsplit : cs.takeWhile (lift (!endsName ·)) ++ rest = cs :=
      List.takeWhile_append_dropWhile
    have hofText : ∀ names, ofText (Template.fill names (char '<' :: cs)) =
        ⟨Template.fill names (char '<' :: cs.takeWhile (lift (!endsName ·))),
          (readPieces [] (rest.fill names)).1, (readPieces [] (rest.fill names)).2⟩ := by
      intro names
      rw [fill_char_cons, ofText, dropWhile_fill level_not_endsName,
        takeWhile_fill level_not_endsName]
      rfl
    by_cases hspace : ∃ c v, isSpace c = true ∧ rest = char c :: v
    · obtain ⟨pieces, tail, hsource, hpieces⟩ := readPieces_fill [] rest
      rw [List.nil_append] at hsource
      refine ⟨char '<' :: cs.takeWhile (lift (!endsName ·)), pieces, tail, ?_, ?_, fun names => ?_⟩
      · rw [hsource, List.cons_append, hsplit]
      · rw [hsource]
        exact fun _ => hspace
      · have hread := hpieces names
        rw [fill_nil] at hread
        rw [hofText, hread]
    · refine ⟨char '<' :: cs.takeWhile (lift (!endsName ·)), [], rest, ?_, fun h => absurd rfl h,
        fun names => ?_⟩
      · rw [List.flatMap_nil, List.nil_append, List.cons_append, hsplit]
      · have hstop : step (rest.fill names) = .stop := by
          apply step_eq_stop
          intro c hc
          have hends := List.head?_dropWhile_not (!endsName ·) (Template.fill names cs)
          rw [dropWhile_fill level_not_endsName, ← hrest, hc] at hends
          have hends' : endsName c = true := by simpa using hends
          have hplain : isStateChar c = false := by
            refine Bool.eq_false_iff.mpr fun h => ?_
            have := not_endsName_of_isNameChar (isNameChar_of_isStateChar h)
            simp [hends'] at this
          rw [Option.mem_def, head?_fill_eq_some_iff hplain] at hc
          obtain ⟨v, hv⟩ := List.head?_eq_some_iff.mp hc
          exact ⟨Bool.eq_false_iff.mpr fun h => hspace ⟨c, v, h, hv⟩, hends'⟩
        rw [hofText, readPieces_of_stop hstop]
        rfl
  · refine ⟨[], [], s, rfl, fun h => absurd rfl h, fun names => ?_⟩
    rw [ofText_of_head? (mt (head?_fill_eq_some_iff rfl).mp hfirst)]
    rfl

end TagText

end SkinMarkup
