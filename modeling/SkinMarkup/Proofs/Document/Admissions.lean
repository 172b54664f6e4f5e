import Mathlib.Data.List.DropRight
import SkinMarkup.Proofs.Document.Stored

/-!
# First in, first out

A request *admits* a key if it stores a value under the key while the key is absent.
Nothing else changes which keys a cache has and in which order, so the keys are always
the latest ones that were admitted since nothing was there, as many as the cache may
hold (`Cache.keys_run`). Hence a key goes when `capacity` other keys have been admitted
after it, or when the cache is cleared, and not before: `Cache.firstInFirstOut`.

- `Cache.keys_serve`: what one request does to the keys.
- `Cache.exists_admission`, `Cache.exists_storing`: a key that is present was admitted,
  and its value was stored, by some request of the past.
-/

namespace SkinMarkup

namespace Cache

/-! ## Requests -/

/-- What can be asked of a cache. -/
inductive Request (α : Type) where
  | insert (key : Text) (value : α)
  | get (key : Text)
  | contains (key : Text)
  | clear

variable {α : Type} {c d : Cache α} {key other : Text} {value : α} {request : Request α}
  {requests : List (Request α)} {capacity : Nat}

/-- The cache after a request. Only what is stored or cleared makes a difference. -/
def serve (c : Cache α) : Request α → Cache α
  | .insert key value => c.insert key value
  | .get _ => c
  | .contains _ => c
  | .clear => c.clear

/-- The cache after a list of requests. -/
def run (c : Cache α) (requests : List (Request α)) : Cache α :=
  requests.foldl serve c

/-- What requests make of a new cache. -/
def built (capacity : Nat) (requests : List (Request α)) : Cache α :=
  (empty capacity).run requests

/-- The keys that are present, oldest first. -/
def keys (c : Cache α) : List Text :=
  c.entries.map Prod.fst

/-- The key that a request admits, if it admits one. -/
def admitted? (c : Cache α) : Request α → Option Text
  | .insert key _ => if c.contains key then none else some key
  | _ => none

/-- The keys that requests admit one after the other. -/
def admissions (c : Cache α) : List (Request α) → List Text
  | [] => []
  | request :: requests => (c.admitted? request).toList ++ (c.serve request).admissions requests

theorem run_cons (c : Cache α) (request : Request α) (requests : List (Request α)) :
    c.run (request :: requests) = (c.serve request).run requests := rfl

theorem built_concat (capacity : Nat) (requests : List (Request α)) (request : Request α) :
    built capacity (requests ++ [request]) = (built capacity requests).serve request := by
  rw [built, run, List.foldl_append]
  rfl

theorem run_built (capacity : Nat) (before after : List (Request α)) :
    (built capacity before).run after = built capacity (before ++ after) := by
  rw [built, built, run, run, run, List.foldl_append]

theorem admissions_concat (c : Cache α) (requests : List (Request α)) (request : Request α) :
    c.admissions (requests ++ [request]) =
      c.admissions requests ++ ((c.run requests).admitted? request).toList := by
  induction requests generalizing c with
  | nil => simp [admissions, run]
  | cons first requests ih =>
    rw [List.cons_append, admissions, ih, admissions, List.append_assoc, run_cons]

/-! ## What every request keeps -/

/-- A cache that has no key twice and no more values than it may hold. -/
abbrev Proper (c : Cache α) : Prop :=
  c.Holds fun _ _ => True

@[simp]
theorem capacity_serve (c : Cache α) (request : Request α) :
    (c.serve request).capacity = c.capacity := by
  cases request with
  | insert key value => exact capacity_insert c key value
  | _ => rfl

theorem Proper.serve (h : c.Proper) (request : Request α) : (c.serve request).Proper := by
  cases request with
  | insert key value => exact Holds.insert h trivial
  | clear => exact Holds.empty _ c.capacity
  | _ => exact h

theorem Proper.run (h : c.Proper) (requests : List (Request α)) :
    (c.run requests).Proper ∧ (c.run requests).capacity = c.capacity := by
  induction requests generalizing c with
  | nil => exact ⟨h, rfl⟩
  | cons request requests ih =>
    obtain ⟨hproper, hcapacity⟩ := ih (h.serve request)
    exact ⟨hproper, hcapacity.trans (capacity_serve c request)⟩

theorem proper_built (capacity : Nat) (requests : List (Request α)) :
    (built capacity requests).Proper :=
  (Proper.run (Holds.empty _ capacity) requests).1

theorem capacity_built (capacity : Nat) (requests : List (Request α)) :
    (built capacity requests).capacity = capacity :=
  (Proper.run (Holds.empty _ capacity) requests).2

theorem Proper.length_keys_le (h : c.Proper) : c.keys.length ≤ c.capacity := by
  rw [keys, List.length_map]
  exact h.size_le

theorem contains_iff_mem_keys : c.contains key = true ↔ key ∈ c.keys := by
  constructor
  · intro h
    obtain ⟨value, hvalue⟩ := Option.isSome_iff_exists.mp h
    exact List.mem_map_of_mem (mem_entries_of_get? hvalue)
  · intro h
    by_contra habsent
    exact not_mem_keys_of_contains (Bool.eq_false_iff.mpr habsent) h

theorem Proper.get?_of_mem (h : c.Proper) (hmem : (key, value) ∈ c.entries) :
    c.get? key = some value := by
  obtain ⟨before, after, hsplit⟩ := List.append_of_mem hmem
  refine List.lookup_eq_some_iff.mpr ⟨before, after, hsplit, ?_⟩
  intro entry hentry
  have hnodup := h.nodup_keys
  rw [hsplit, List.map_append, List.nodup_append] at hnodup
  have hne := hnodup.2.2 entry.1 (List.mem_map_of_mem hentry) key (by simp)
  simpa using hne.symm

/-! ## The order of the keys -/

theorem rtake_append_rtake {β : Type} (n : Nat) (before after : List β) :
    (before.rtake n ++ after).rtake n = (before ++ after).rtake n := by
  simp [List.rtake_eq_reverse_take_reverse, List.take_append, List.take_take]

theorem rtake_of_length_le {β : Type} {l : List β} {n : Nat} (h : l.length ≤ n) :
    l.rtake n = l := by
  rw [List.rtake, Nat.sub_eq_zero_of_le h, List.drop_zero]

theorem mem_rtake_append_cons_iff {β : Type} {x : β} {n : Nat} {before after : List β}
    (hafter : x ∉ after) : x ∈ (before ++ x :: after).rtake n ↔ after.length < n := by
  have htake : x ∈ (before ++ x :: after).rtake n ↔
      x ∈ (x :: before.reverse).take (n - after.length) := by
    have hnot : x ∉ after.reverse.take n := fun h =>
      hafter (List.mem_reverse.mp (List.mem_of_mem_take h))
    simp [List.rtake_eq_reverse_take_reverse, List.take_append, hnot]
  rw [htake]
  constructor
  · intro h
    by_contra hle
    rw [Nat.sub_eq_zero_of_le (Nat.le_of_not_lt hle), List.take_zero] at h
    cases h
  · intro h
    obtain ⟨m, hm⟩ := Nat.exists_eq_succ_of_ne_zero (Nat.sub_ne_zero_of_lt h)
    rw [hm, List.take_succ_cons]
    exact List.mem_cons_self

/-- A present key keeps its place when another value is stored under it. -/
theorem keys_insert_of_present (h : c.contains key = true) (value : α) :
    (c.insert key value).keys = c.keys := by
  rw [insert, if_pos h]
  split
  · rfl
  · exact map_fst_replace key value c.entries

/-- A new key goes to the end, and the oldest ones make room for it. -/
theorem keys_insert_of_absent (hcapacity : 0 < c.capacity) (h : c.contains key = false)
    (value : α) : (c.insert key value).keys = (c.keys ++ [key]).rtake c.capacity := by
  obtain ⟨n, hn⟩ := Nat.exists_eq_succ_of_ne_zero hcapacity.ne'
  have habsent : ¬ c.contains key = true := Bool.eq_false_iff.mp h
  rw [insert, if_neg hcapacity.ne', if_neg habsent, hn, List.rtake_concat_succ, List.rtake]
  simp [keys, List.map_drop]

/-- **What a request does to the keys:** those that it admits go to the end, and as many
stay as the cache may hold. -/
theorem Proper.keys_serve (h : c.Proper) (hcapacity : 0 < c.capacity)
    (hclear : request ≠ .clear) :
    (c.serve request).keys = (c.keys ++ (c.admitted? request).toList).rtake c.capacity := by
  have hstay : c.keys = (c.keys ++ []).rtake c.capacity := by
    rw [List.append_nil, rtake_of_length_le h.length_keys_le]
  cases request with
  | insert key value =>
    show (c.insert key value).keys = _
    rw [admitted?]
    cases hkey : c.contains key with
    | true => rwa [keys_insert_of_present hkey, if_pos rfl]
    | false => rw [keys_insert_of_absent hcapacity hkey, if_neg (by simp), Option.toList_some]
  | get key => exact hstay
  | contains key => exact hstay
  | clear => exact absurd rfl hclear

/-- **The keys after requests** are the latest of those that were there and those that
were admitted. -/
theorem Proper.keys_run (h : c.Proper) (hcapacity : 0 < c.capacity)
    (hclear : .clear ∉ requests) :
    (c.run requests).keys = (c.keys ++ c.admissions requests).rtake c.capacity := by
  induction requests generalizing c with
  | nil =>
    rw [admissions, List.append_nil, rtake_of_length_le h.length_keys_le]
    rfl
  | cons request requests ih =>
    rw [List.mem_cons, not_or] at hclear
    obtain ⟨hfirst, hothers⟩ := hclear
    have hnext := ih (h.serve request) (by rwa [capacity_serve]) hothers
    rw [run_cons, hnext, capacity_serve, h.keys_serve hcapacity (Ne.symm hfirst),
      rtake_append_rtake, List.append_assoc, admissions]

/-- A key that was admitted is present until as many other keys have been admitted as the
cache may hold. -/
theorem Proper.contains_run_iff (h : c.Proper) (hcapacity : 0 < c.capacity)
    (habsent : c.contains key = false) (hclear : .clear ∉ requests)
    (hkey : key ∉ (c.insert key value).admissions requests) :
    ((c.insert key value).run requests).contains key = true ↔
      ((c.insert key value).admissions requests).length < c.capacity := by
  have hinsert : (c.insert key value).Proper := h.insert trivial
  have hsame : (c.insert key value).capacity = c.capacity := capacity_insert c key value
  rw [contains_iff_mem_keys, hinsert.keys_run (by rwa [hsame]) hclear, hsame,
    keys_insert_of_absent hcapacity habsent, rtake_append_rtake, List.append_assoc,
    List.singleton_append, mem_rtake_append_cons_iff hkey]

/-- When a key that was admitted after some requests is still present after all of them. -/
theorem contains_built_iff {before after : List (Request α)} (hcapacity : 0 < capacity)
    (habsent : (built capacity before).contains key = false) (hclear : .clear ∉ after)
    (hkey : key ∉ (built capacity (before ++ [.insert key value])).admissions after) :
    (built capacity (before ++ .insert key value :: after)).contains key = true ↔
      ((built capacity (before ++ [.insert key value])).admissions after).length < capacity := by
  have hinsert : built capacity (before ++ [.insert key value]) =
      (built capacity before).insert key value := built_concat capacity before _
  have hlast : built capacity (before ++ .insert key value :: after) =
      ((built capacity before).insert key value).run after :=
    (run_built capacity before _).symm
  rw [hinsert] at hkey ⊢
  have hpos : 0 < (built capacity before).capacity := by rwa [capacity_built]
  have hiff := (proper_built capacity before).contains_run_iff hpos habsent hclear hkey
  rwa [capacity_built, ← hlast] at hiff

/-- Which keys are present later depends on the keys only, and not on their values. -/
theorem keys_run_congr (hcapacity : c.capacity = d.capacity) (hkeys : c.keys = d.keys)
    (requests : List (Request α)) : (c.run requests).keys = (d.run requests).keys := by
  induction requests generalizing c d with
  | nil => exact hkeys
  | cons request requests ih =>
    refine ih (by rw [capacity_serve, capacity_serve, hcapacity]) ?_
    cases request with
    | insert key value =>
      have hcontains : c.contains key = d.contains key := by
        rw [Bool.eq_iff_iff, contains_iff_mem_keys, contains_iff_mem_keys, hkeys]
      show (c.insert key value).keys = (d.insert key value).keys
      cases hkey : d.contains key with
      | true =>
        rw [keys_insert_of_present (hcontains.trans hkey), keys_insert_of_present hkey, hkeys]
      | false =>
        by_cases hzero : c.capacity = 0
        · rw [insert, insert, if_pos hzero, if_pos (hcapacity ▸ hzero), hkeys]
        · have hpos := Nat.pos_of_ne_zero hzero
          rw [keys_insert_of_absent hpos (hcontains.trans hkey),
            keys_insert_of_absent (hcapacity ▸ hpos) hkey, hkeys, hcapacity]
    | get key => exact hkeys
    | contains key => exact hkeys
    | clear => rfl

/-- What neither clears a cache nor admits a key leaves the keys as they are. -/
theorem keys_serve_of_not_admitted (hclear : request ≠ .clear) (h : c.admitted? request = none) :
    (c.serve request).keys = c.keys := by
  cases request with
  | insert key value =>
    refine keys_insert_of_present ?_ value
    by_contra hkey
    rw [admitted?, if_neg hkey] at h
    cases h
  | get key => rfl
  | contains key => rfl
  | clear => exact absurd rfl hclear

/-! ## Looking back -/

/-- A key that is present after a request was admitted by it, or was present before and is not
admitted again. -/
theorem contains_serve_cases (h : (c.serve request).contains key = true) :
    (c.contains key = false ∧ ∃ value, request = .insert key value) ∨
    (c.contains key = true ∧ request ≠ .clear ∧ key ∉ (c.admitted? request).toList) := by
  cases request with
  | insert other value =>
    cases hother : c.contains other with
    | true =>
      right
      change (c.insert other value).contains key = true at h
      rw [contains_iff_mem_keys, keys_insert_of_present hother, ← contains_iff_mem_keys] at h
      refine ⟨h, by simp, ?_⟩
      rw [admitted?, if_pos hother]
      simp
    | false =>
      by_cases hkey : key = other
      · subst hkey
        exact .inl ⟨hother, value, rfl⟩
      · right
        change (c.insert other value).contains key = true at h
        have hmem : key ∈ c.keys := by
          by_cases hzero : c.capacity = 0
          · rw [insert, if_pos hzero] at h
            exact contains_iff_mem_keys.mp h
          · have hpos := Nat.pos_of_ne_zero hzero
            rw [contains_iff_mem_keys, keys_insert_of_absent hpos hother] at h
            have hmem := (List.drop_sublist _ _).subset h
            simpa [hkey] using hmem
        refine ⟨contains_iff_mem_keys.mpr hmem, by simp, ?_⟩
        rw [admitted?, if_neg (by simp [hother]), Option.toList_some, List.mem_singleton]
        exact hkey
  | get other => exact .inr ⟨h, by simp, by simp [admitted?]⟩
  | contains other => exact .inr ⟨h, by simp, by simp [admitted?]⟩
  | clear => cases h

/-- **A key that is present was admitted,** and at the latest time that it was, nothing has
cleared the cache since. -/
theorem exists_admission (h : (built capacity requests).contains key = true) :
    ∃ before value after, requests = before ++ .insert key value :: after ∧
      (built capacity before).contains key = false ∧ .clear ∉ after ∧
      key ∉ (built capacity (before ++ [.insert key value])).admissions after := by
  induction requests using List.reverseRecOn with
  | nil => cases h
  | append_singleton requests request ih =>
    rw [built_concat] at h
    rcases contains_serve_cases h with ⟨habsent, value, rfl⟩ | ⟨hpresent, hclear, hnot⟩
    · exact ⟨requests, value, [], rfl, habsent, by simp, by simp [admissions]⟩
    · obtain ⟨before, value, after, rfl, habsent, hold, hadmissions⟩ := ih hpresent
      refine ⟨before, value, after ++ [request], by simp, habsent, ?_, ?_⟩
      · rw [List.mem_append, List.mem_singleton]
        rintro (hmem | heq)
        · exact hold hmem
        · exact hclear heq.symm
      · rw [admissions_concat, run_built, List.append_assoc, List.singleton_append,
          List.mem_append]
        rintro (hmem | hmem)
        · exact hadmissions hmem
        · exact hnot hmem

/-- What is in a cache after storing a value: this value, or what was there under other keys. -/
theorem Proper.mem_insert_cases {stored : α} (h : c.Proper)
    (hmem : (other, value) ∈ (c.insert key stored).entries) :
    (other = key ∧ value = stored) ∨ (other ≠ key ∧ (other, value) ∈ c.entries) := by
  unfold insert at hmem
  split at hmem
  · next hzero =>
    have hlength := h.size_le
    rw [hzero, Nat.le_zero] at hlength
    rw [List.eq_nil_of_length_eq_zero hlength] at hmem
    cases hmem
  · split at hmem
    · obtain ⟨old, hold, heq⟩ := List.mem_map.mp hmem
      split at heq
      · cases heq
        exact .inl ⟨rfl, rfl⟩
      · next hne =>
        subst heq
        exact .inr ⟨hne, hold⟩
    · next habsent =>
      rcases List.mem_append.mp hmem with hold | hnew
      · have hold := (List.drop_sublist _ _).subset hold
        refine .inr ⟨?_, hold⟩
        rintro rfl
        exact not_mem_keys_of_contains (Bool.eq_false_iff.mpr habsent) (List.mem_map_of_mem hold)
      · cases List.mem_singleton.mp hnew
        exact .inl ⟨rfl, rfl⟩

/-- The value of a key after a request was stored by it, or was there before and no other was
stored. -/
theorem Proper.get?_serve_cases (hproper : c.Proper)
    (h : (c.serve request).get? key = some value) :
    request = .insert key value ∨
    (c.get? key = some value ∧ ∀ newer, request ≠ .insert key newer) := by
  cases request with
  | insert other stored =>
    rcases hproper.mem_insert_cases (mem_entries_of_get? h) with ⟨rfl, rfl⟩ | ⟨hne, hmem⟩
    · exact .inl rfl
    · refine .inr ⟨hproper.get?_of_mem hmem, ?_⟩
      rintro newer ⟨⟩
      exact hne rfl
  | get other => exact .inr ⟨h, by simp⟩
  | contains other => exact .inr ⟨h, by simp⟩
  | clear => cases h

/-- **A value that is present was stored,** and no other has been stored under its key since. -/
theorem exists_storing (h : (built capacity requests).get? key = some value) :
    ∃ before after, requests = before ++ .insert key value :: after ∧
      ∀ newer, .insert key newer ∉ after := by
  induction requests using List.reverseRecOn with
  | nil => cases h
  | append_singleton requests request ih =>
    rw [built_concat] at h
    rcases (proper_built capacity requests).get?_serve_cases h with rfl | ⟨hold, hother⟩
    · exact ⟨requests, [], rfl, by simp⟩
    · obtain ⟨before, after, rfl, hnone⟩ := ih hold
      refine ⟨before, after ++ [request], by simp, ?_⟩
      intro newer
      rw [List.mem_append, List.mem_singleton]
      rintro (hmem | heq)
      · exact hnone newer hmem
      · exact hother newer heq.symm

/-- **A cache is a bounded queue of keys.** Whatever has been asked of a new cache, it has
no more values than it may hold. A key is present if and only if the cache may hold
anything, the key has been admitted, and since it was admitted last the cache has not
been cleared and fewer other keys have been admitted than it may hold. The key then
leads to the value that was stored last. What neither clears the cache nor admits a key,
such as looking a key up or storing another value under a present one, changes nothing
about which keys are present and which go next, whatever is asked afterwards. -/
theorem firstInFirstOut (capacity : Nat) (requests : List (Request α)) (key : Text) :
    (built capacity requests).size ≤ capacity ∧
    ((built capacity requests).contains key = true ↔
      0 < capacity ∧ ∃ before value after, requests = before ++ .insert key value :: after ∧
        (built capacity before).contains key = false ∧ .clear ∉ after ∧
        key ∉ (built capacity (before ++ [.insert key value])).admissions after ∧
        ((built capacity (before ++ [.insert key value])).admissions after).length < capacity) ∧
    ((built capacity requests).contains key = true →
      ∃ before value after, requests = before ++ .insert key value :: after ∧
        (∀ newer, .insert key newer ∉ after) ∧
        (built capacity requests).get? key = some value) ∧
    ∀ request, request ≠ .clear → (built capacity requests).admitted? request = none →
      ∀ later, (((built capacity requests).serve request).run later).keys =
        ((built capacity requests).run later).keys := by
  have hproper := proper_built capacity requests
  have hcapacity := capacity_built capacity requests
  refine ⟨hproper.size_le.trans_eq hcapacity, ?_, ?_, ?_⟩
  · constructor
    · intro hpresent
      have hpos : 0 < capacity := by
        have hlength := List.length_pos_of_mem (contains_iff_mem_keys.mp hpresent)
        exact hlength.trans_le (hproper.length_keys_le.trans_eq hcapacity)
      obtain ⟨before, value, after, rfl, habsent, hclear, hkey⟩ := exists_admission hpresent
      refine ⟨hpos, before, value, after, rfl, habsent, hclear, hkey, ?_⟩
      exact (contains_built_iff hpos habsent hclear hkey).mp hpresent
    · rintro ⟨hpos, before, value, after, rfl, habsent, hclear, hkey, hlength⟩
      exact (contains_built_iff hpos habsent hclear hkey).mpr hlength
  · intro hpresent
    obtain ⟨value, hvalue⟩ := Option.isSome_iff_exists.mp hpresent
    obtain ⟨before, after, hsplit, hnone⟩ := exists_storing hvalue
    exact ⟨before, value, after, hsplit, hnone, hvalue⟩
  · intro request hclear hadmitted later
    exact keys_run_congr (capacity_serve _ _) (keys_serve_of_not_admitted hclear hadmitted) later

end Cache

end SkinMarkup
