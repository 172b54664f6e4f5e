import Mathlib.Data.List.Count
import Mathlib.Data.Prod.Lex
import SkinMarkup.Position
import SkinMarkup.Proofs.Text.Bytes

/-!
# Lines and columns

The line of a byte is one more than the number of line feeds before it, and its column
one more than the number of bytes since the last of them. A line index answers with
exactly these numbers, also for offsets past the end of the text, and later bytes have
later places: `LineIndex.exact_of_locate`. Offsets and columns are machine words. One
offset is too large: on the first line the largest word would have the next number as its
column (`LineIndex.column_le_maxWord_iff`).

- `LineIndex.starts_ofText`: the entries are zero and the places behind the line feeds.
- `LineIndex.finds_of_locate`: the entries up to an offset end at its line and nowhere
  else, so a search for that number, of whatever kind, finds the line.
-/

namespace SkinMarkup

/-- The line of byte `offset` starts at `start`: there the text starts or a line feed
ends, and no line feed stands in between. -/
structure StartsLine (text : List UInt8) (offset start : Nat) : Prop where
  le : start ≤ offset
  opened : start = 0 ∨ text[start - 1]? = some lineFeed
  unbroken : ∀ i, start ≤ i → i < offset → text[i]? ≠ some lineFeed

/-- A place that names the line and the column of its offset. -/
structure Place.Exact (text : List UInt8) (place : Place) : Prop where
  line : place.line = 1 + (text.take place.offset).count lineFeed
  column : ∃ start, StartsLine text place.offset start ∧ place.column = 1 + (place.offset - start)

/-- The entries in front of number `n` are those up to the offset. -/
structure Divides (entries : List Nat) (offset n : Nat) : Prop where
  le_length : n ≤ entries.length
  le_iff : ∀ {i start}, entries[i]? = some start → (start ≤ offset ↔ i < n)

/-- What is looked up in an index for an offset: the line is where the entries up to the
offset end, and the last of those entries gives the column. -/
structure LineIndex.Finds (index : LineIndex) (offset : Nat) (place : Place) : Prop where
  divided : ∀ n, Divides index.starts offset n ↔ n = place.line
  counted : 0 < place.line
  column : ∃ start, index.starts[place.line - 1]? = some start ∧ start ≤ offset ∧
    place.column = offset - start + 1

/-! ## Dividing increasing lists -/

variable {entries : List Nat} {offset n m : Nat}

/-- In an increasing list the entries up to a bound are those before the first larger
one. -/
theorem divides_takeWhile (h : entries.Pairwise (· < ·)) (offset : Nat) :
    Divides entries offset (entries.takeWhile (· ≤ offset)).length := by
  refine ⟨(List.takeWhile_prefix _).length_le, ?_⟩
  intro i start hi
  induction entries generalizing i with
  | nil => cases hi
  | cons first entries ih =>
    obtain ⟨hfirst, hrest⟩ := List.pairwise_cons.mp h
    by_cases hle : first ≤ offset
    · rw [List.takeWhile_cons_of_pos (by simpa using hle), List.length_cons]
      cases i with
      | zero =>
        cases hi
        simp [hle]
      | succ i => rw [ih hrest hi, Nat.add_lt_add_iff_right]
    · rw [List.takeWhile_cons_of_neg (by simpa using hle)]
      have hlarge : first ≤ start := by
        cases i with
        | zero =>
          cases hi
          exact Nat.le_refl start
        | succ i => exact (hfirst start (List.mem_of_getElem? hi)).le
      constructor
      · intro hstart
        exact absurd (hlarge.trans hstart) hle
      · rintro ⟨⟩

/-- A list is divided at one place only. -/
theorem Divides.le (hn : Divides entries offset n) (hm : Divides entries offset m) : n ≤ m := by
  refine Nat.le_of_not_lt fun hlt => ?_
  obtain ⟨start, hstart⟩ : ∃ start, entries[m]? = some start :=
    ⟨_, List.getElem?_eq_getElem (hlt.trans_le hn.le_length)⟩
  have hle := (hn.le_iff hstart).mpr hlt
  exact Nat.lt_irrefl m ((hm.le_iff hstart).mp hle)

theorem getElem?_length_takeWhile {p : Nat → Bool}
    (h : 0 < (entries.takeWhile p).length) :
    entries[(entries.takeWhile p).length - 1]? = some ((entries.takeWhile p).getLastD 0) := by
  obtain ⟨others, hsplit⟩ := List.takeWhile_prefix (l := entries) p
  have hlast := List.getLast?_eq_some_getLast (List.length_pos_iff.mp h)
  calc entries[(entries.takeWhile p).length - 1]?
      = (entries.takeWhile p ++ others)[(entries.takeWhile p).length - 1]? := by rw [hsplit]
    _ = (entries.takeWhile p).getLast? := by
        rw [List.getElem?_append_left (by omega), List.getLast?_eq_getElem?]
    _ = some ((entries.takeWhile p).getLastD 0) := by
        rw [List.getLastD_eq_getLast?, hlast, Option.getD_some]

/-! ## The entries of an index -/

theorem lineStartsFrom_eq (offset : Nat) (t : Text) :
    lineStartsFrom offset t = ((bytes t).idxsOf lineFeed offset).map (· + 1) := by
  induction t generalizing offset with
  | nil => rfl
  | cons c cs ih =>
    have hrest := ih (offset + c.utf8Size)
    rw [bytes_cons, List.idxsOf_append, List.map_append, String.length_utf8EncodeChar, ← hrest]
    by_cases hc : c = '\n'
    · subst hc
      rfl
    · have hnone : (String.utf8EncodeChar c).idxsOf lineFeed offset = [] := by
        rw [List.idxsOf_eq_nil_iff]
        intro b hb
        rw [beq_eq_false_iff_ne]
        rintro rfl
        exact hc (lineFeed_mem_utf8EncodeChar_iff.mp hb)
      rw [hnone]
      exact if_neg hc

namespace LineIndex

variable {t : Text} {start : Nat}

/-- The entries are zero and, for every line feed, the place behind it. -/
theorem starts_ofText (t : Text) :
    (ofText t).starts = 0 :: ((bytes t).idxsOf lineFeed).map (· + 1) := by
  rw [ofText, lineStartsFrom_eq]

theorem mem_starts_iff :
    start ∈ (ofText t).starts ↔ start = 0 ∨ ∃ i, (bytes t)[i]? = some lineFeed ∧ start = i + 1 := by
  rw [starts_ofText, List.mem_cons, List.mem_map]
  simp only [List.mem_idxsOf_iff_exists_getElem_pos, beq_iff_eq, List.getElem?_eq_some_iff,
    @eq_comm _ start]

theorem pairwise_starts (t : Text) : (ofText t).starts.Pairwise (· < ·) := by
  rw [starts_ofText, List.pairwise_cons]
  constructor
  · intro start hstart
    obtain ⟨i, -, rfl⟩ := List.mem_map.mp hstart
    exact Nat.succ_pos i
  · refine List.pairwise_map.mpr (List.pairwise_idxsOf.imp ?_)
    exact fun hlt => Nat.succ_lt_succ hlt

/-! ## What is found -/

theorem length_takeWhile_idxsOf (text : List UInt8) (offset start : Nat) :
    (((text.idxsOf lineFeed start).map (· + 1)).takeWhile (· ≤ offset)).length =
      (text.take (offset - start)).count lineFeed := by
  induction text generalizing start with
  | nil => simp
  | cons b text ih =>
    have hrest := ih (start + 1)
    rw [List.idxsOf_cons]
    by_cases hstart : start + 1 ≤ offset
    · have hcount : offset - start = offset - (start + 1) + 1 := by omega
      rw [hcount, List.take_succ_cons, List.count_cons, ← hrest]
      by_cases hb : b == lineFeed
      · rw [if_pos hb, if_pos hb, List.map_cons,
          List.takeWhile_cons_of_pos (by exact decide_eq_true hstart), List.length_cons]
      · rw [if_neg hb, if_neg hb]
        rfl
    · have hnone : offset - start = 0 := by omega
      have hnext : offset - (start + 1) = 0 := by omega
      rw [hnext] at hrest
      rw [hnone]
      by_cases hb : b == lineFeed
      · rw [if_pos hb, List.map_cons,
          List.takeWhile_cons_of_neg (by exact fun hle => hstart (of_decide_eq_true hle))]
        rfl
      · rw [if_neg hb, hrest]
        rfl

/-- The line of an offset is counted by the line feeds before it. -/
theorem line_locate (t : Text) (offset : Nat) :
    ((ofText t).locate offset).line = 1 + ((bytes t).take offset).count lineFeed := by
  rw [locate, starts_ofText]
  dsimp only
  rw [List.takeWhile_cons_of_pos (by simp), List.length_cons, length_takeWhile_idxsOf, Nat.sub_zero,
    Nat.add_comm]

theorem finds_of_locate (t : Text) (offset : Nat) :
    (ofText t).Finds offset ((ofText t).locate offset) := by
  have hline := line_locate t offset
  have hdivides : Divides (ofText t).starts offset ((ofText t).locate offset).line :=
    divides_takeWhile (pairwise_starts t) offset
  have hcounted : 0 < ((ofText t).locate offset).line := by omega
  have hlast := getElem?_length_takeWhile hcounted
  refine ⟨fun n => ⟨?_, ?_⟩, hcounted, _, hlast, ?_, rfl⟩
  · intro hn
    exact Nat.le_antisymm (hn.le hdivides) (hdivides.le hn)
  · rintro rfl
    exact hdivides
  · exact (hdivides.le_iff hlast).mpr (Nat.sub_one_lt_of_lt hcounted)

/-- The last entry up to an offset is where the line of the offset starts. -/
theorem Finds.startsLine {place : Place} (h : (ofText t).Finds offset place)
    (hstart : (ofText t).starts[place.line - 1]? = some start) :
    StartsLine (bytes t) offset start := by
  have hcounted := h.counted
  have hdivides := (h.divided place.line).mpr rfl
  refine ⟨(hdivides.le_iff hstart).mpr (by omega), ?_, ?_⟩
  · rcases mem_starts_iff.mp (List.mem_of_getElem? hstart) with rfl | ⟨i, hi, rfl⟩
    · exact Or.inl rfl
    · exact Or.inr hi
  · intro i hle hlt hfeed
    -- The entry behind that line feed would stand between two neighbours.
    obtain ⟨j, hj⟩ := List.mem_iff_getElem?.mp (mem_starts_iff.mpr (Or.inr ⟨i, hfeed, rfl⟩))
    have hbefore := (hdivides.le_iff hj).mp hlt
    have hthere := divides_takeWhile (pairwise_starts t) i
    have hbehind := (hthere.le_iff hj).not.mp (Nat.not_succ_le_self i)
    have hfront := (hthere.le_iff hstart).mp hle
    omega

/-- A line index names the line and the column of every offset. -/
theorem exact_locate (t : Text) (offset : Nat) : ((ofText t).locate offset).Exact (bytes t) := by
  have hfinds := finds_of_locate t offset
  obtain ⟨start, hstart, -, hcolumn⟩ := hfinds.column
  refine ⟨line_locate t offset, start, hfinds.startsLine hstart, ?_⟩
  rw [hcolumn, Nat.add_comm]
  rfl

/-- Later offsets have later places: on a later line, or behind on the same line. -/
theorem strictMono_locate (t : Text) : StrictMono fun offset =>
    toLex (((ofText t).locate offset).line, ((ofText t).locate offset).column) := by
  intro offset later hlater
  show toLex _ < toLex _
  rw [Prod.Lex.toLex_lt_toLex]
  have hline : ((ofText t).locate offset).line ≤ ((ofText t).locate later).line := by
    rw [line_locate, line_locate]
    have htake := List.take_prefix_take_left (l := bytes t) hlater.le
    exact Nat.add_le_add_left (htake.sublist.count_le lineFeed) 1
  rcases hline.lt_or_eq with hlt | heq
  · exact Or.inl hlt
  · -- On one line both columns count from the same entry.
    refine Or.inr ⟨heq, ?_⟩
    obtain ⟨start, hstart, hle, hcolumn⟩ := (finds_of_locate t offset).column
    obtain ⟨start', hstart', hle', hcolumn'⟩ := (finds_of_locate t later).column
    rw [← heq, hstart] at hstart'
    cases hstart'
    show ((ofText t).locate offset).column < ((ofText t).locate later).column
    omega

/-! ## Machine words -/

/-- In machine words the lookup answers if the column is a word. -/
theorem locate?_eq (t : Text) (offset : Nat) :
    (ofText t).locate? offset =
      if ((ofText t).locate offset).column ≤ maxWord then some ((ofText t).locate offset) else none := by
  have hfinds := finds_of_locate t offset
  obtain ⟨start, hstart, hle, hcolumn⟩ := hfinds.column
  obtain ⟨before, hbefore⟩ := Nat.exists_eq_add_one.mpr hfinds.counted
  have hline : ((ofText t).starts.takeWhile (· ≤ offset)).length = before + 1 := hbefore
  rw [hbefore, Nat.add_sub_cancel] at hstart
  unfold locate?
  rw [hline]
  dsimp only
  rw [hstart]
  dsimp only
  rw [hcolumn]
  by_cases hfits : offset - start + 1 ≤ maxWord
  · rw [if_pos hfits, if_pos ⟨hle, hfits⟩]
    congr 1
    show _ = Place.mk offset ((ofText t).locate offset).line ((ofText t).locate offset).column
    rw [hbefore, hcolumn]
  · rw [if_neg hfits, if_neg fun hboth => hfits hboth.2]

/-- The column of a word is a word unless the offset is the largest one and no line feed
stands before it. -/
theorem column_le_maxWord_iff (t : Text) {offset : Nat} (hword : offset ≤ maxWord) :
    ((ofText t).locate offset).column ≤ maxWord ↔
      offset < maxWord ∨ lineFeed ∈ (bytes t).take offset := by
  obtain ⟨start, ⟨hle, hopened, hunbroken⟩, hcolumn⟩ := (exact_locate t offset).column
  have hle : start ≤ offset := hle
  have hcolumn : ((ofText t).locate offset).column = 1 + (offset - start) := hcolumn
  constructor
  · intro hfits
    rcases hopened with rfl | hfeed
    · exact .inl (by omega)
    · by_cases hstart : start = 0
      · exact .inl (by omega)
      · refine .inr (List.mem_of_getElem? (i := start - 1) ?_)
        rw [List.getElem?_take_of_lt (by omega)]
        exact hfeed
  · rintro (hlt | hmem)
    · omega
    · obtain ⟨i, hi⟩ := List.mem_iff_getElem?.mp hmem
      rw [List.getElem?_take] at hi
      split at hi
      · next hlt =>
        have hbehind : ¬ start ≤ i := fun hstart => hunbroken i hstart hlt hi
        omega
      · cases hi

/-- **Lines and columns are exact.** Let an offset be a machine word and not the largest
one, or let a line feed stand before it. Whether it is in the text or past its end, it has
a place, which names the line and the column of the offset. Nothing fails on the way: the
entries are divided at exactly one number, which is the line and not zero, the entry before
it is there and not behind the offset, and the column is a machine word. Of two places the
one of the later offset is the later one. -/
theorem exact_of_locate (t : Text) :
    (∀ offset, offset ≤ maxWord → offset < maxWord ∨ lineFeed ∈ (bytes t).take offset →
      ∃ place, (ofText t).locate? offset = some place ∧ place.offset = offset ∧
        place.Exact (bytes t) ∧ (ofText t).Finds offset place ∧ place.column ≤ maxWord) ∧
    ∀ offset later place place', offset < later → (ofText t).locate? offset = some place →
      (ofText t).locate? later = some place' →
      toLex (place.line, place.column) < toLex (place'.line, place'.column) := by
  constructor
  · intro offset hword hfree
    have hcolumn := (column_le_maxWord_iff t hword).mpr hfree
    refine ⟨_, ?_, rfl, exact_locate t offset, finds_of_locate t offset, hcolumn⟩
    rw [locate?_eq, if_pos hcolumn]
  · intro offset later place place' hlater hplace hplace'
    obtain ⟨-, heq⟩ := Option.ite_none_right_eq_some.mp ((locate?_eq t offset).symm.trans hplace)
    obtain ⟨-, heq'⟩ := Option.ite_none_right_eq_some.mp ((locate?_eq t later).symm.trans hplace')
    cases heq
    cases heq'
    exact strictMono_locate t hlater

/-- Behind a line feed even the largest word has a place, and that is behind the place of
the line feed. -/
theorem exact_of_locate_maxWord :
    let t := "<a>\n</a>".toList
    (maxWord ≤ maxWord ∧ (maxWord < maxWord ∨ lineFeed ∈ (bytes t).take maxWord) ∧
      ∃ place, (ofText t).locate? maxWord = some place ∧ place.offset = maxWord ∧
        place.Exact (bytes t) ∧ (ofText t).Finds maxWord place ∧ place.column ≤ maxWord) ∧
    (3 < maxWord ∧ (ofText t).locate? 3 = some ⟨3, 1, 4⟩ ∧
      (ofText t).locate? maxWord = some ⟨maxWord, 2, maxWord - 3⟩ ∧
      toLex (1, 4) < toLex (2, maxWord - 3)) := by
  intro t
  have hfeed : lineFeed ∈ (bytes t).take maxWord := by decide
  have hthree : (ofText t).locate? 3 = some ⟨3, 1, 4⟩ := by decide
  have hlast : (ofText t).locate? maxWord = some ⟨maxWord, 2, maxWord - 3⟩ := by decide
  obtain ⟨hplaces, horder⟩ := exact_of_locate t
  exact ⟨⟨le_rfl, .inr hfeed, hplaces maxWord le_rfl (.inr hfeed)⟩, by decide, hthree, hlast,
    horder 3 maxWord _ _ (by decide) hthree hlast⟩

/-- On the first line the largest word has no column: it would be the next number. -/
theorem locate?_maxWord_eq_none : (ofText "<a/>".toList).locate? maxWord = none := by
  decide

end LineIndex

end SkinMarkup
