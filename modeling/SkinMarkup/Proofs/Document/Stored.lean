import SkinMarkup.Document.Cache
import SkinMarkup.Proofs.Document.Steps

/-!
# Reading through a store

A document without issues is the same whatever the options it was read with
(`parse_eq_ok_nil_iff`), so a store may answer for any of them. Every request
keeps a store faithful: it has no key twice, it holds no more than it may, and
each text leads to its own document (`Reader.Faithful.parse_snd`). So nobody can tell
a reader with a store from one without, whatever was read before:
`Reader.parseAll_withCapacity`.
-/

namespace SkinMarkup

/-! ## What a cache holds -/

namespace Cache

variable {α : Type} {p : Text → α → Prop} {c : Cache α}

/-- A cache with no key twice and no more values than it may hold, each of which
goes with its key. -/
structure Holds (p : Text → α → Prop) (c : Cache α) : Prop where
  size_le : c.size ≤ c.capacity
  nodup_keys : (c.entries.map Prod.fst).Nodup
  entries : ∀ entry ∈ c.entries, p entry.1 entry.2

theorem mem_entries_of_get? {key : Text} {value : α} (h : c.get? key = some value) :
    (key, value) ∈ c.entries := by
  obtain ⟨before, after, hsplit, -⟩ := List.lookup_eq_some_iff.mp h
  rw [hsplit]
  exact List.mem_append_right _ List.mem_cons_self

theorem not_mem_keys_of_contains {key : Text} (h : c.contains key = false) :
    key ∉ c.entries.map Prod.fst := by
  intro hmem
  obtain ⟨⟨key', value⟩, hentry, rfl⟩ := List.mem_map.mp hmem
  have hnone : c.entries.lookup key' = none := by
    simpa [contains, get?] using h
  have hne := List.lookup_eq_none_iff.mp hnone _ hentry
  simp at hne

@[simp]
theorem capacity_insert (c : Cache α) (key : Text) (value : α) :
    (c.insert key value).capacity = c.capacity := by
  unfold insert
  split
  · rfl
  · split <;> rfl

/-- Another value under a key leaves the keys as they are. -/
theorem map_fst_replace (key : Text) (value : α) (entries : List (Text × α)) :
    (entries.map fun entry => if entry.1 = key then (key, value) else entry).map Prod.fst =
      entries.map Prod.fst := by
  rw [List.map_map]
  refine List.map_congr_left ?_
  intro entry _
  by_cases hkey : entry.1 = key
  · simp [hkey]
  · simp [hkey]

theorem Holds.empty (p : Text → α → Prop) (capacity : Nat) : (empty capacity).Holds p where
  size_le := Nat.zero_le capacity
  nodup_keys := List.nodup_nil
  entries := by
    intro entry hentry
    cases hentry

/-- **Storing a value keeps what a cache holds**, whether the key is new, present
or makes the oldest one give way. -/
theorem Holds.insert {key : Text} {value : α} (h : c.Holds p) (hvalue : p key value) :
    (c.insert key value).Holds p := by
  unfold Cache.insert
  split
  · exact h
  · next hcapacity =>
    split
    · constructor
      · simpa [size] using h.size_le
      · simpa only [map_fst_replace] using h.nodup_keys
      · intro entry hentry
        obtain ⟨old, hold, rfl⟩ := List.mem_map.mp hentry
        split
        · exact hvalue
        · exact h.entries old hold
    · next habsent =>
      have hnew := not_mem_keys_of_contains (Bool.eq_false_iff.mpr habsent)
      have hsub := List.drop_subset (c.entries.length + 1 - c.capacity) c.entries
      constructor
      · have hsize := h.size_le
        simp only [size, List.length_append, List.length_drop, List.length_singleton] at hsize ⊢
        omega
      · rw [List.map_append, List.nodup_append]
        refine ⟨?_, by simp, ?_⟩
        · exact h.nodup_keys.sublist ((List.drop_sublist _ _).map Prod.fst)
        · intro old hold new hmem hsame
          rw [List.map_singleton, List.mem_singleton] at hmem
          subst hsame hmem
          exact hnew (List.map_subset _ hsub hold)
      · intro entry hentry
        rcases List.mem_append.mp hentry with hold | hmem
        · exact h.entries entry (hsub hold)
        · rw [List.mem_singleton.mp hmem]
          exact hvalue

end Cache

/-! ## Documents without issues -/

/-- Options make no difference to a document without issues. -/
theorem parse_eq_ok_nil_iff {options : ParseOptions} {t : Text} {root : Tag} :
    parse options t = .ok ⟨root, []⟩ ↔ (Source.ofText t).read = .ok ⟨root, []⟩ := by
  unfold parse
  cases hread : (Source.ofText t).read with
  | error failure => simp [bind, Except.bind]
  | ok found =>
    obtain ⟨found, issues⟩ := found
    simp only [bind, Except.bind, Except.ok.injEq, Document.mk.injEq]
    cases issues with
    | nil => simp
    | cons issue issues =>
      constructor
      · intro h
        split at h
        · cases h
        · simp only [Except.ok.injEq, Document.mk.injEq] at h
          split at h <;> simp at h
      · rintro ⟨-, h⟩
        cases h

/-- A document that a strict reading of a text gives, without an issue. -/
structure Document.IsOf (t : Text) (document : Document) : Prop where
  parseStrict_eq : parseStrict t = .ok document.root
  issues_eq : document.issues = []

theorem Document.isOf_of_parse {options : ParseOptions} {t : Text} {document : Document}
    (h : parse options t = .ok document) (hissues : document.issues = []) : document.IsOf t := by
  obtain ⟨root, issues⟩ := document
  subst hissues
  exact ⟨parseStrict_eq_ok_iff.mpr (parse_eq_ok_nil_iff.mpr (parse_eq_ok_nil_iff.mp h)), rfl⟩

theorem Document.IsOf.parse_eq {t : Text} {document : Document} (h : document.IsOf t)
    (options : ParseOptions) : parse options t = .ok document := by
  obtain ⟨root, issues⟩ := document
  obtain ⟨hparse, hissues⟩ := h
  subst hissues
  exact parse_eq_ok_nil_iff.mpr (parse_eq_ok_nil_iff.mp (parseStrict_eq_ok_iff.mp hparse))

/-! ## Requests to a reader -/

namespace Reader

/-- The answers to a list of requests, one after the other, and the reader after the
last one. -/
def parseAll (r : Reader) : List (ParseOptions × Text) → List (Except ParseFailure Document) × Reader
  | [] => ([], r)
  | (options, t) :: requests =>
    let (answer, r) := r.parse options t
    let (answers, r) := r.parseAll requests
    (answer :: answers, r)

/-- Every text in the store leads to its own document. -/
abbrev Faithful (r : Reader) : Prop :=
  r.cache.Holds fun t document => document.IsOf t

/-- What a request does: it is answered from the store or as if there were none,
and only a document without issues is stored. -/
theorem parse_cases (r : Reader) (options : ParseOptions) (t : Text) :
    (∃ document, r.cache.get? t = some document ∧ r.parse options t = (.ok document, r)) ∨
    (∃ document, SkinMarkup.parse options t = .ok document ∧ document.issues = [] ∧
      r.parse options t = (.ok document, ⟨r.cache.insert t document⟩)) ∨
    r.parse options t = (SkinMarkup.parse options t, r) := by
  unfold parse
  split
  · next document hfound =>
    split at hfound
    · exact .inl ⟨document, hfound, rfl⟩
    · cases hfound
  · cases hparse : SkinMarkup.parse options t with
    | error failure => exact .inr (.inr rfl)
    | ok document =>
      dsimp only
      split
      · next hstored =>
        rw [Bool.and_eq_true, List.isEmpty_iff] at hstored
        exact .inr (.inl ⟨document, rfl, hstored.2, rfl⟩)
      · exact .inr (.inr rfl)

theorem faithful_withCapacity (capacity : Nat) : (withCapacity capacity).Faithful :=
  .empty _ capacity

/-- A request is answered as if there were no store. -/
theorem Faithful.parse_fst {r : Reader} (h : r.Faithful) (options : ParseOptions) (t : Text) :
    (r.parse options t).1 = SkinMarkup.parse options t := by
  rcases r.parse_cases options t with ⟨document, hfound, heq⟩ | ⟨document, hparse, -, heq⟩ | heq
  · have hdocument := h.entries _ (Cache.mem_entries_of_get? hfound)
    rw [heq, hdocument.parse_eq options]
  · rw [heq, hparse]
  · rw [heq]

/-- A request keeps the store faithful. -/
theorem Faithful.parse_snd {r : Reader} (h : r.Faithful) (options : ParseOptions) (t : Text) :
    (r.parse options t).2.Faithful ∧ (r.parse options t).2.cache.capacity = r.cache.capacity := by
  rcases r.parse_cases options t with ⟨document, -, heq⟩ | ⟨document, hparse, hissues, heq⟩ | heq
  · rw [heq]
    exact ⟨h, rfl⟩
  · rw [heq]
    exact ⟨h.insert (Document.isOf_of_parse hparse hissues), Cache.capacity_insert _ _ _⟩
  · rw [heq]
    exact ⟨h, rfl⟩

theorem Faithful.parseAll {r : Reader} (h : r.Faithful) (requests : List (ParseOptions × Text)) :
    (r.parseAll requests).1 = requests.map (fun request => SkinMarkup.parse request.1 request.2) ∧
    (r.parseAll requests).2.Faithful ∧
    (r.parseAll requests).2.cache.capacity = r.cache.capacity := by
  induction requests generalizing r with
  | nil => exact ⟨rfl, h, rfl⟩
  | cons request requests ih =>
    obtain ⟨options, t⟩ := request
    obtain ⟨hnext, hcapacity⟩ := h.parse_snd options t
    obtain ⟨hanswers, hlast, hsame⟩ := ih hnext
    refine ⟨?_, hlast, hsame.trans hcapacity⟩
    rw [List.map_cons, ← hanswers, ← h.parse_fst options t]
    rfl

/-- **A store cannot be noticed.** Whatever is requested of a new reader, with
whatever options, every answer is what reading the text without a store gives.
After any requests the store holds at most `capacity` documents under different
texts, each of them the document without issues that a strict reading of its text
gives. -/
theorem parseAll_withCapacity (capacity : Nat) (requests : List (ParseOptions × Text)) :
    ((withCapacity capacity).parseAll requests).1 =
      requests.map (fun request => SkinMarkup.parse request.1 request.2) ∧
    ((withCapacity capacity).parseAll requests).2.cache.size ≤ capacity ∧
    (((withCapacity capacity).parseAll requests).2.cache.entries.map Prod.fst).Nodup ∧
    ∀ entry ∈ ((withCapacity capacity).parseAll requests).2.cache.entries,
      parseStrict entry.1 = .ok entry.2.root ∧ entry.2.issues = [] := by
  obtain ⟨hanswers, hlast, hcapacity⟩ := (faithful_withCapacity capacity).parseAll requests
  refine ⟨hanswers, ?_, hlast.nodup_keys, ?_⟩
  · have hsize := hlast.size_le
    rwa [hcapacity] at hsize
  · intro entry hentry
    have hdocument := hlast.entries entry hentry
    exact ⟨hdocument.parseStrict_eq, hdocument.issues_eq⟩

end Reader

end SkinMarkup
