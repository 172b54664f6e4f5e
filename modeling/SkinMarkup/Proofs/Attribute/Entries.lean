import Mathlib.Data.List.Forall2
import SkinMarkup.Document.Builder
import SkinMarkup.Proofs.Text.Search

/-!
# What a start tag says and where it says it

The names and values of the attributes of a start tag depend on what is written
after its name, and on nothing else: not on the name, nor on the offset of the
tag. So the same attributes are read again where the tag is written with
another name (`attributesOf_congr`).

The name of an attribute is a part of the tag (`name_of_mem_attributesOf`).
-/

namespace SkinMarkup

/-- What is related to something has whatever this gives it. -/
theorem forall_mem_of_forall₂ {α β : Type} {R : α → β → Prop} {P : β → Prop} {as : List α}
    {bs : List β} (h : List.Forall₂ R as bs) (hR : ∀ a ∈ as, ∀ b, R a b → P b) : ∀ b ∈ bs, P b := by
  induction h with
  | nil => exact List.forall_mem_nil P
  | cons hab _ ih =>
    exact List.forall_mem_cons.mpr ⟨hR _ List.mem_cons_self _ hab,
      ih fun a ha => hR a (List.mem_cons_of_mem _ ha)⟩

/-- What is related to a list in order is in order. -/
theorem pairwise_of_forall₂ {α β : Type} {R : α → β → Prop} {S : α → α → Prop} {S' : β → β → Prop}
    {as : List α} {bs : List β} (h : List.Forall₂ R as bs) (hS : as.Pairwise S)
    (hR : ∀ {a a' b b'}, R a b → R a' b' → S a a' → S' b b') : bs.Pairwise S' := by
  induction h with
  | nil => exact List.Pairwise.nil
  | cons hab hothers ih =>
    obtain ⟨hfirst, hS⟩ := List.pairwise_cons.mp hS
    exact List.pairwise_cons.mpr ⟨forall_mem_of_forall₂ hothers fun a' ha' b' hab' =>
      hR hab hab' (hfirst a' ha'), ih hS⟩

namespace WrittenAttribute

/-- A name with its value, wherever they stand. -/
def entry (a : WrittenAttribute) : Text × Text :=
  (a.name, a.value)

variable {total total' : Nat} {seen seen' : List WrittenAttribute} {t rest : Text}

theorem readValue_congr {parts : Text × Text} (h : readValue total t = .ok parts) :
    readValue total' t = .ok parts := by
  unfold readValue at h ⊢
  split at h
  · cases h
  · next quote more heq =>
    split at h
    · next hquote =>
      rw [if_pos hquote]
      split at h
      · exact h
      · cases h
    · cases h

theorem readValue_suffix {value : Text} (h : readValue total t = .ok (value, rest)) :
    rest <:+ t := by
  unfold readValue at h
  split at h
  · cases h
  · next quote more heq =>
    have hmore : quote :: more <:+ t := heq ▸ List.dropWhile_suffix _
    split at h
    · split at h
      · next hcut =>
        cases h
        have hrest : rest <:+ quote :: more :=
          ⟨quote :: (value ++ [quote]), by rw [cutAt_eq_some hcut]; simp⟩
        exact hrest.trans hmore
      · cases h
    · cases h

theorem find?_eq_none_congr {name : Text} (hseen : seen'.map entry = seen.map entry)
    (h : (seen.find? fun a => a.name = name) = none) :
    (seen'.find? fun a => a.name = name) = none := by
  rw [List.find?_eq_none] at h ⊢
  intro a ha hname
  have hentry : a.entry ∈ seen.map entry := hseen ▸ List.mem_map_of_mem ha
  obtain ⟨b, hb, heq⟩ := List.mem_map.mp hentry
  have hb_name : b.name = a.name := congrArg Prod.fst heq
  exact h b hb (by rw [hb_name]; exact hname)

/-- What one successful reading says: the name and the value stand in the text,
and the name has not been seen. -/
theorem readOne_eq_ok {c : Char} {cs : Text} {a : WrittenAttribute}
    (h : readOne total seen c cs = .ok (a, rest)) :
    a.name = c :: cs.takeWhile (!endsName ·) ∧ (seen.find? fun b => b.name = a.name) = none ∧
      ∃ more, (cs.dropWhile (!endsName ·)).dropWhile isMarkupSpace = '=' :: more ∧
        readValue total more = .ok (a.value, rest) := by
  unfold readOne at h
  dsimp only at h
  split at h
  · cases h
  · next e more heq =>
    split at h
    · next he =>
      subst he
      split at h
      · cases h
      · next hfind =>
        cases hvalue : readValue total more with
        | error fault => simp [hvalue, bind, Except.bind] at h
        | ok parts =>
          simp only [hvalue, bind, Except.bind, pure, Except.pure, Except.ok.injEq, Prod.mk.injEq] at h
          obtain ⟨rfl, rfl⟩ := h
          exact ⟨rfl, hfind, more, heq, hvalue⟩
    · cases h

theorem readOne_congr {c : Char} {cs : Text} {a : WrittenAttribute}
    (hseen : seen'.map entry = seen.map entry) (h : readOne total seen c cs = .ok (a, rest)) :
    ∃ a', readOne total' seen' c cs = .ok (a', rest) ∧ a'.entry = a.entry := by
  obtain ⟨hname, hfind, more, hmore, hvalue⟩ := readOne_eq_ok h
  have hfind' := find?_eq_none_congr hseen hfind
  have hvalue' : readValue total' more = .ok (a.value, rest) := readValue_congr hvalue
  rw [hname] at hfind'
  refine ⟨⟨a.name, a.value, total' - width (c :: cs)⟩, ?_, rfl⟩
  unfold readOne
  rw [hmore]
  dsimp only
  rw [if_pos rfl, hfind']
  dsimp only
  rw [hvalue', hname]
  rfl

theorem readFrom_of_dropWhile_eq_nil (h : t.dropWhile isMarkupSpace = []) :
    readFrom total seen t = ([], none) := by
  fun_cases readFrom total seen t with
  | case1 => rfl
  | case2 c cs hstart => rw [h] at hstart; cases hstart
  | case3 c cs hstart => rw [h] at hstart; cases hstart

theorem readFrom_of_readOne {c : Char} {cs : Text} {a : WrittenAttribute}
    (h : t.dropWhile isMarkupSpace = c :: cs) (hread : readOne total seen c cs = .ok (a, rest)) :
    readFrom total seen t =
      (a :: (readFrom total (seen ++ [a]) rest).1, (readFrom total (seen ++ [a]) rest).2) := by
  fun_cases readFrom total seen t with
  | case1 hstart => rw [h] at hstart; cases hstart
  | case2 c' cs' hstart fault hfault =>
    rw [h] at hstart
    cases hstart
    cases hread.symm.trans hfault
  | case3 c' cs' hstart a' rest' hread' _ others fault heq =>
    rw [h] at hstart
    cases hstart
    cases hread.symm.trans hread'
    rw [heq]

/-- **The same text is read with the same names and values.** -/
theorem readFrom_congr {written : List WrittenAttribute}
    (h : readFrom total seen t = (written, none)) :
    ∀ {seen' : List WrittenAttribute}, seen'.map entry = seen.map entry →
      ∃ written', readFrom total' seen' t = (written', none) ∧
        written'.map entry = written.map entry := by
  fun_induction readFrom total seen t generalizing written with
  | case1 seen t hstart =>
    cases h
    intro seen' _
    exact ⟨[], readFrom_of_dropWhile_eq_nil hstart, rfl⟩
  | case2 => cases h
  | case3 seen t c cs hstart a rest hread _ others fault hothers ih =>
    cases h
    intro seen' hseen
    -- The offsets of the two readings differ, but no offset decides whether a name is new.
    obtain ⟨a', hread', ha⟩ := readOne_congr hseen hread
    have hseen' : (seen' ++ [a']).map entry = (seen ++ [a]).map entry := by
      simp [hseen, ha]
    obtain ⟨others', hothers', hmap⟩ := ih hothers hseen'
    refine ⟨a' :: others', ?_, by rw [List.map_cons, List.map_cons, ha, hmap]⟩
    rw [readFrom_of_readOne hstart hread', hothers']

theorem name_of_mem_readFrom {a : WrittenAttribute} (ha : a ∈ (readFrom total seen t).1) :
    a.name <:+: t := by
  fun_induction readFrom total seen t with
  | case1 => cases ha
  | case2 => cases ha
  | case3 seen t c cs hstart a' rest hread _ others fault hothers ih =>
    have ht : c :: cs <:+ t := hstart ▸ List.dropWhile_suffix _
    obtain ⟨hname, -, more, hmore, hvalue⟩ := readOne_eq_ok hread
    rcases List.mem_cons.mp ha with rfl | ha
    · have hpart : a.name <+: c :: cs := by
        rw [hname, List.cons_prefix_cons]
        exact ⟨rfl, List.takeWhile_prefix _⟩
      exact hpart.isInfix.trans ht.isInfix
    · have hname' : a.name <:+: rest := ih (by rw [hothers]; exact ha)
      have hmore : '=' :: more <:+ cs :=
        hmore ▸ (List.dropWhile_suffix _).trans (List.dropWhile_suffix _)
      have hrest : rest <:+ cs :=
        (readValue_suffix hvalue).trans ((List.suffix_cons _ _).trans hmore)
      exact hname'.trans (hrest.trans ((List.suffix_cons c cs).trans ht)).isInfix

/-- No name is read twice, and none that has been seen. -/
theorem nodup_name_readFrom :
    ((readFrom total seen t).1.map name).Nodup ∧
      ∀ a ∈ (readFrom total seen t).1, ∀ b ∈ seen, b.name ≠ a.name := by
  fun_induction readFrom total seen t with
  | case1 => exact ⟨List.nodup_nil, by rintro a ⟨⟩⟩
  | case2 => exact ⟨List.nodup_nil, by rintro a ⟨⟩⟩
  | case3 seen t c cs hstart a rest hread _ others fault hothers ih =>
    obtain ⟨-, hfind, -⟩ := readOne_eq_ok hread
    rw [hothers] at ih
    obtain ⟨hnodup, hnew⟩ := ih
    constructor
    · refine List.nodup_cons.mpr ⟨?_, hnodup⟩
      intro hmem
      obtain ⟨b, hb, hname⟩ := List.mem_map.mp hmem
      exact hnew b hb a (List.mem_append_right _ List.mem_cons_self) hname.symm
    · intro b hb x hx
      rcases List.mem_cons.mp hb with rfl | hb
      · intro hname
        exact List.find?_eq_none.mp hfind x hx (decide_eq_true hname)
      · exact hnew b hb x (List.mem_append_left _ hx)

/-- A placed attribute keeps its name, and its value can be read alone. -/
theorem place_eq_ok {offset : Nat} {tag : TagText} {a : WrittenAttribute} {placed : Attribute}
    (h : a.place offset tag = .ok placed) :
    placed.name = a.name ∧ unescape a.value = .ok placed.value := by
  unfold place at h
  split at h
  · cases h
  · next value hvalue =>
    split at h
    · cases h
      exact ⟨rfl, hvalue⟩
    · cases h
      exact ⟨rfl, hvalue⟩

end WrittenAttribute

/-- A name with its value, wherever they stand. -/
def Attribute.entry (a : Attribute) : Text × Text :=
  (a.name, a.value)

theorem WrittenAttribute.place_congr {offset offset' : Nat} {tag tag' : TagText}
    {a a' : WrittenAttribute} {placed : Attribute} (ha : a'.entry = a.entry)
    (h : a.place offset tag = .ok placed) :
    ∃ placed', a'.place offset' tag' = .ok placed' ∧ placed'.entry = placed.entry := by
  obtain ⟨hname, hvalue⟩ := place_eq_ok h
  obtain ⟨hname', hvalue'⟩ := Prod.mk.inj ha
  rw [← hvalue'] at hvalue
  have hentry : (a'.name, placed.value) = placed.entry := by
    rw [hname', ← hname]
    rfl
  unfold place
  rw [hvalue]
  dsimp only
  split
  · exact ⟨_, rfl, hentry⟩
  · exact ⟨_, rfl, hentry⟩

section

variable {offset offset' : Nat} {tag tag' : TagText}

theorem mapM_place_cons_eq_ok {a : WrittenAttribute} {written : List WrittenAttribute}
    {placed : List Attribute} :
    (a :: written).mapM (WrittenAttribute.place offset tag) = .ok placed ↔
      ∃ first others, a.place offset tag = .ok first ∧
        written.mapM (WrittenAttribute.place offset tag) = .ok others ∧ placed = first :: others := by
  rw [List.mapM_cons]
  cases hplace : a.place offset tag with
  | error fault => simp [bind, Except.bind]
  | ok first =>
    cases hothers : written.mapM (WrittenAttribute.place offset tag) with
    | error fault => simp [bind, Except.bind]
    | ok others => simp [bind, Except.bind, pure, Except.pure, eq_comm]

theorem mapM_place_congr {written written' : List WrittenAttribute} {placed : List Attribute}
    (hentry : written'.map WrittenAttribute.entry = written.map WrittenAttribute.entry)
    (h : written.mapM (WrittenAttribute.place offset tag) = .ok placed) :
    ∃ placed', written'.mapM (WrittenAttribute.place offset' tag') = .ok placed' ∧
      placed'.map Attribute.entry = placed.map Attribute.entry := by
  induction written generalizing written' placed with
  | nil =>
    obtain rfl := List.map_eq_nil_iff.mp hentry
    cases h
    exact ⟨[], rfl, rfl⟩
  | cons a written ih =>
    cases written' with
    | nil => cases hentry
    | cons a' written' =>
      obtain ⟨ha, hrest⟩ := List.cons.inj hentry
      obtain ⟨first, others, hplace, hothers, rfl⟩ := mapM_place_cons_eq_ok.mp h
      obtain ⟨first', hfirst', hentry'⟩ := WrittenAttribute.place_congr ha hplace
      obtain ⟨others', hothers', hmap⟩ := ih hrest hothers
      refine ⟨first' :: others', mapM_place_cons_eq_ok.mpr ⟨_, _, hfirst', hothers', rfl⟩, ?_⟩
      rw [List.map_cons, List.map_cons, hentry', hmap]

theorem map_name_of_mapM_place {written : List WrittenAttribute} {placed : List Attribute}
    (h : written.mapM (WrittenAttribute.place offset tag) = .ok placed) :
    placed.map (·.name) = written.map (·.name) := by
  induction written generalizing placed with
  | nil =>
    cases h
    rfl
  | cons w written ih =>
    obtain ⟨first, others, hplace, hothers, rfl⟩ := mapM_place_cons_eq_ok.mp h
    rw [List.map_cons, List.map_cons, (WrittenAttribute.place_eq_ok hplace).1, ih hothers]

theorem exists_of_mem_mapM_place {written : List WrittenAttribute} {placed : List Attribute}
    (h : written.mapM (WrittenAttribute.place offset tag) = .ok placed) :
    ∀ a ∈ placed, ∃ w ∈ written, a.name = w.name := by
  induction written generalizing placed with
  | nil =>
    cases h
    rintro a ⟨⟩
  | cons w written ih =>
    obtain ⟨first, others, hplace, hothers, rfl⟩ := mapM_place_cons_eq_ok.mp h
    intro a ha
    rcases List.mem_cons.mp ha with rfl | ha
    · exact ⟨w, List.mem_cons_self, (WrittenAttribute.place_eq_ok hplace).1⟩
    · obtain ⟨x, hx, hname⟩ := ih hothers a ha
      exact ⟨x, List.mem_cons_of_mem w hx, hname⟩

end

/-! ## Start tags -/

variable {offset offset' : Nat} {shown shown' content content' : Text} {attributes : List Attribute}

theorem attributesOf_eq_ok :
    attributesOf offset shown content = .ok attributes ↔
      ∃ written, WrittenAttribute.readAll content = (written, none) ∧
        written.mapM (WrittenAttribute.place offset (TagText.ofText shown)) = .ok attributes := by
  unfold attributesOf
  rcases WrittenAttribute.readAll content with ⟨written, fault⟩
  dsimp only
  cases hplaced : written.mapM (WrittenAttribute.place offset (TagText.ofText shown)) with
  | error malformation =>
    constructor
    · rintro ⟨⟩
    · rintro ⟨_, ⟨rfl, rfl⟩, h⟩
      cases hplaced.symm.trans h
  | ok placed =>
    cases fault with
    | some fault =>
      constructor
      · rintro ⟨⟩
      · rintro ⟨_, ⟨⟩, -⟩
    | none =>
      constructor
      · rintro ⟨⟩
        exact ⟨written, rfl, hplaced⟩
      · rintro ⟨_, ⟨rfl, rfl⟩, h⟩
        cases hplaced.symm.trans h
        rfl

/-- **Start tags with the same text after their names have the same
attributes,** wherever they stand. -/
theorem attributesOf_congr
    (hcontent : content'.dropWhile (!isMarkupSpace ·) = content.dropWhile (!isMarkupSpace ·))
    (h : attributesOf offset shown content = .ok attributes) :
    ∃ attributes', attributesOf offset' shown' content' = .ok attributes' ∧
      attributes'.map Attribute.entry = attributes.map Attribute.entry := by
  obtain ⟨written, hread, hplaced⟩ := attributesOf_eq_ok.mp h
  obtain ⟨written', hread', hentry⟩ :
      ∃ written', WrittenAttribute.readFrom (width content') []
          (content.dropWhile (!isMarkupSpace ·)) = (written', none) ∧
        written'.map WrittenAttribute.entry = written.map WrittenAttribute.entry :=
    WrittenAttribute.readFrom_congr hread rfl
  obtain ⟨attributes', hplaced', hentries⟩ := mapM_place_congr hentry hplaced
  refine ⟨attributes', attributesOf_eq_ok.mpr ⟨written', ?_, hplaced'⟩, hentries⟩
  rw [WrittenAttribute.readAll, hcontent, hread']

theorem name_of_mem_attributesOf (h : attributesOf offset shown content = .ok attributes)
    {a : Attribute} (ha : a ∈ attributes) : a.name <:+: content := by
  obtain ⟨written, hread, hplaced⟩ := attributesOf_eq_ok.mp h
  obtain ⟨w, hw, hname⟩ := exists_of_mem_mapM_place hplaced a ha
  have hmem : w ∈ (WrittenAttribute.readFrom (width content) []
      (content.dropWhile (!isMarkupSpace ·))).1 := by
    rw [WrittenAttribute.readAll] at hread
    rwa [hread]
  rw [hname]
  exact (WrittenAttribute.name_of_mem_readFrom hmem).trans (List.dropWhile_suffix _).isInfix

/-- The attributes of a start tag have different names. -/
theorem nodup_name_attributesOf (h : attributesOf offset shown content = .ok attributes) :
    (attributes.map (·.name)).Nodup := by
  obtain ⟨written, hread, hplaced⟩ := attributesOf_eq_ok.mp h
  rw [map_name_of_mapM_place hplaced]
  have hnodup : ((WrittenAttribute.readAll content).1.map (·.name)).Nodup :=
    WrittenAttribute.nodup_name_readFrom.1
  rwa [hread] at hnodup

theorem value_find?_congr {attributes' : List Attribute} (name : Text)
    (h : attributes'.map Attribute.entry = attributes.map Attribute.entry) :
    (Attribute.find? name attributes').map Attribute.value =
      (Attribute.find? name attributes).map Attribute.value := by
  induction attributes generalizing attributes' with
  | nil => rw [List.map_eq_nil_iff.mp h]
  | cons a attributes ih =>
    cases attributes' with
    | nil => cases h
    | cons a' attributes' =>
      obtain ⟨ha, hrest⟩ := List.cons.inj h
      obtain ⟨hname, hvalue⟩ := Prod.mk.inj ha
      have ih := ih hrest
      unfold Attribute.find? at ih ⊢
      rw [List.find?_cons, List.find?_cons, hname]
      cases decide (a.name = name) with
      | true => exact congrArg some hvalue
      | false => exact ih

end SkinMarkup
