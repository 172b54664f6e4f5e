import SkinMarkup.Proofs.Scan.Located
import SkinMarkup.Proofs.State.Actions

/-!
# Edits of start tags that are repeated

An edit of states gives the start tags outside the blocks of declarations another text,
which depends on nothing but the tag and the elements around it (`Edits`). So a revision
is a map over the segments of a text and the elements they belong to (`Edits.revise_eq`).

Repeating it does nothing if every tag keeps the text that it got. Elements may have got
another name by then, since an attribute that is inserted into a tag without attributes
cuts the blanks off the name: `Dialect.Trims` says what has become of the names of the
elements around a tag, and `Lasting` that a tag keeps its text among them. With the list
on the root, which is edited last, this gives `Edits.andThen_declareState_twice`.
-/

namespace SkinMarkup

/-! ## Where elements stand -/

/-- Where elements stand among elements that are open, innermost first. -/
def Dialect.standing (d : Dialect) (opened : List Text) : Standing :=
  opened.foldr d.below .root

/-- What creating a blank state remembers of the elements that are open. -/
def Dialect.flags (d : Dialect) : List Text → List Bool
  | [] => []
  | name :: opened => decide (d.below name (d.standing opened) = .direct) :: d.flags opened

theorem ofLevels_flags (d : Dialect) (opened : List Text) :
    Standing.ofLevels (d.flags opened) = d.standing opened := by
  cases opened with
  | nil => rfl
  | cons name opened => exact Standing.ofLevels_cons d name (d.standing opened) _

theorem drop_flags (d : Dialect) (opened : List Text) :
    (d.flags opened).drop 1 = d.flags (opened.drop 1) := by
  cases opened <;> rfl

/-! ## The names of elements -/

namespace Dialect

variable {d : Dialect} {name name' : Text} {opened opened' names names' : List Text}

/-- Whether one of the elements `names` is a block of declarations. -/
def withholds (d : Dialect) (names : List Text) : Bool :=
  names.any fun name => localOf name = d.declarations

theorem withholds_cons (d : Dialect) (name : Text) (names : List Text) :
    d.withholds (name :: names) = (decide (localOf name = d.declarations) || d.withholds names) :=
  rfl

theorem withholds_of_block (h : localOf name = d.declarations) (names : List Text) :
    d.withholds (name :: names) = true := by
  rw [withholds_cons, decide_eq_true h, Bool.true_or]

theorem withholds_of_not_block (h : localOf name ≠ d.declarations) (names : List Text) :
    d.withholds (name :: names) = d.withholds names := by
  rw [withholds_cons, decide_eq_false h, Bool.false_or]

theorem withholds_of_suffix (h : names <:+ names') (hnames : d.withholds names = true) :
    d.withholds names' = true := by
  obtain ⟨name, hmem, hblock⟩ := List.any_eq_true.mp hnames
  exact List.any_eq_true.mpr ⟨name, h.subset hmem, hblock⟩

theorem withholds_openAfter {token : Token} (hopened : d.withholds opened = false)
    (hblock : token.isStart = true → token.localName ≠ d.declarations) :
    d.withholds (Segment.openAfter opened token) = false := by
  rw [withholds, List.any_eq_false] at hopened ⊢
  intro name hname
  cases hstart : token.isStart with
  | false => exact hopened name (Segment.openAfter_subset_of_not_isStart hstart opened hname)
  | true =>
    rcases List.mem_cons.mp (Segment.openAfter_subset opened token hname) with rfl | hname
    · exact fun heq => hblock hstart (of_decide_eq_true heq)
    · exact hopened name hname

/-- What becomes of the name of an element among others when its tag gets a first
attribute. Below the root only components get one, and they do not turn into
containers. -/
def Renames (d : Dialect) (opened : List Text) (name name' : Text) : Prop :=
  name' = name ∨ name' = trimEnd name ∧
    (opened = [] ∨ d.isScoped (d.standing opened) name = true ∧ d.isContainer (localOf name') = false)

/-- What becomes of the names of elements, innermost first. -/
inductive Trims (d : Dialect) : List Text → List Text → Prop
  | nil : Trims d [] []
  | cons {opened opened' : List Text} {name name' : Text} : Trims d opened opened' →
      d.Renames opened name name' → Trims d (name :: opened) (name' :: opened')

theorem Trims.drop (h : d.Trims names names') : d.Trims (names.drop 1) (names'.drop 1) := by
  cases h with
  | nil => exact .nil
  | cons hopened _ => exact hopened

/-- A name ends in what its local part ends in. -/
theorem trimEnd_of_localOf (h : trimEnd (localOf name) = localOf name) : trimEnd name = name := by
  rw [localOf] at h
  cases hcut : cutAt ':' name with
  | none => simpa [hcut] using h
  | some parts =>
    obtain ⟨nsPrefix, rest⟩ := parts
    rw [hcut] at h
    refine trimEnd_of_last fun c hc => ?_
    rw [cutAt_eq_some hcut, List.getLast?_append_of_ne_nil _ (List.cons_ne_nil _ _)] at hc
    cases rest with
    | nil =>
      cases hc
      decide
    | cons e es =>
      rw [List.getLast?_cons_cons] at hc
      have hlast := last_trimEnd (e :: es)
      rw [h] at hlast
      exact hlast c hc

variable (hsolid : trimEnd d.declarations = d.declarations)

include hsolid

/-- **A block of declarations keeps its name.** -/
theorem Renames.localOf_eq (h : d.Renames opened name name')
    (hblock : localOf name = d.declarations) : localOf name' = d.declarations := by
  have hname : trimEnd name = name := trimEnd_of_localOf (by rw [hblock, hsolid])
  rcases h with rfl | ⟨rfl, -⟩
  · exact hblock
  · rw [hname, hblock]

theorem Trims.withholds (h : d.Trims names names') (hnames : d.withholds names = true) :
    d.withholds names' = true := by
  induction h with
  | nil => exact hnames
  | cons _ hrenames ih =>
    rw [withholds_cons, Bool.or_eq_true, decide_eq_true_eq] at hnames ⊢
    exact hnames.imp (hrenames.localOf_eq hsolid) ih

/-- **No element moves up to the elements directly below the root.** -/
theorem Trims.standing (h : d.Trims opened opened') (hdirect : d.standing opened' = .direct) :
    d.standing opened = .direct := by
  induction h with
  | nil => exact hdirect
  | @cons opened opened' name name' hopened hrenames ih =>
    change d.below name' (d.standing opened') = .direct at hdirect
    change d.below name (d.standing opened) = .direct
    cases hopened with
    | nil =>
      have hblock : localOf name ≠ d.declarations := by
        intro hblock
        have hdeeper : d.below name' .root = .deeper := if_pos (hrenames.localOf_eq hsolid hblock)
        cases hdeeper.symm.trans hdirect
      exact if_neg hblock
    | @cons more more' outer outer' hmore houter =>
      -- Below an element, only containers hold what is directly below the root.
      have hroot : d.standing (outer' :: more') ≠ .root := by
        change d.below outer' (d.standing more') ≠ .root
        cases d.standing more' <;> rw [Dialect.below] <;> first | decide | (split <;> decide)
      cases hstanding : d.standing (outer' :: more') with
      | root => exact absurd hstanding hroot
      | deeper =>
        rw [hstanding] at hdirect
        cases hdirect
      | direct =>
        rw [hstanding, Dialect.below] at hdirect
        split at hdirect
        · next hcontainer =>
          rcases hrenames with rfl | ⟨-, hnil | ⟨-, hnot⟩⟩
          · rw [ih hstanding, Dialect.below, if_pos hcontainer]
          · cases hnil
          · cases hnot.symm.trans hcontainer.1
        · cases hdirect

theorem Trims.isScoped (h : d.Trims opened opened')
    (hscoped : d.isScoped (d.standing opened') name = true) :
    d.isScoped (d.standing opened) name = true := by
  simp only [Dialect.isScoped, Bool.and_eq_true, decide_eq_true_eq] at hscoped ⊢
  obtain ⟨⟨⟨hdirect, hcontainer⟩, hblock⟩, hcomponent⟩ := hscoped
  exact ⟨⟨⟨h.standing hsolid hdirect, hcontainer⟩, hblock⟩, hcomponent⟩

end Dialect

/-! ## Edits of start tags -/

/-- An action that gives start tags outside the blocks of declarations another text and
passes over the blocks. What it remembers, `flags`, tells no more than which elements
are open. -/
structure Edits {σ : Type} (d : Dialect) (act : σ → Token → σ × Action)
    (flags : σ → List Text → Prop) (edit : List Text → Token → Text) : Prop where
  other : ∀ {token : Token}, token.isStart = false → ∀ {memory opened}, flags memory opened →
    ∃ memory', act memory token = (memory', .keep) ∧ flags memory' (Segment.openAfter opened token)
  block : ∀ {token : Token}, token.isStart = true → token.localName = d.declarations →
    ∀ memory, act memory token = (memory, .pass)
  start : ∀ {token : Token}, token.isStart = true → token.localName ≠ d.declarations →
    ∀ {memory opened}, flags memory opened → ∃ memory' action,
      act memory token = (memory', action) ∧ flags memory' (Segment.openAfter opened token) ∧
        (action = .keep ∧ edit opened token = token.text ∨ action = .replace (edit opened token))

/-- A copied state edits every start tag. -/
theorem edits_copy (d : Dialect) (model state : Text) :
    Edits d (fun (_ : Unit) token => ((), copyAction d model state token)) (fun _ _ => True)
      (fun _ token => copyTag token.kind model state token.text) where
  other := fun h _ _ _ => ⟨(), by rw [copyAction_of_not_isStart h], trivial⟩
  block := fun h hname _ => by rw [copyAction_of_declarations h hname]
  start := fun h hname _ _ _ => ⟨(), _, rfl, trivial, Or.inr (copyAction_of_isStart h hname)⟩

/-- A component directly below the root that is kept out of a state. -/
def blankEdit (d : Dialect) (allStates : List Text) (state : Text) (opened : List Text)
    (token : Token) : Text :=
  if d.isScoped (d.standing opened) token.name = true then
    editOr (scopeOut token.kind allStates state) token.text
  else token.text

/-- A blank state edits components. It remembers which elements stand directly below the
root. -/
theorem edits_blank (d : Dialect) (allStates : List Text) (state : Text) :
    Edits d (blankAction d allStates state) (fun levels opened => levels = d.flags opened)
      (blankEdit d allStates state) where
  other := by
    rintro token h levels opened rfl
    refine ⟨_, blankAction_of_not_isStart h _, ?_⟩
    split
    · next hclosing => rw [Segment.openAfter_of_closing hclosing, drop_flags]
    · next hclosing =>
      have hopening : token.kind ≠ .opening := by
        intro hkind
        rw [Token.isStart, hkind] at h
        cases h
      rw [Segment.openAfter_of_other hopening hclosing]
  block := fun h hname _ => blankAction_of_declarations h hname _
  start := by
    rintro token h hname levels opened rfl
    obtain ⟨action, haction, hcases⟩ :=
      blankAction_of_isStart allStates state h hname (d.flags opened)
    rw [ofLevels_flags] at haction hcases
    refine ⟨_, action, haction, ?_, ?_⟩
    · split
      · next hopening => rw [Segment.openAfter_of_opening hopening, Dialect.flags]
      · next hopening => rw [Segment.openAfter_of_other hopening (ne_closing_of_isStart h)]
    · rcases hcases with ⟨rfl, hnone⟩ | ⟨tag, rfl, hscoped, hscope⟩
      · refine Or.inl ⟨rfl, ?_⟩
        rw [blankEdit]
        split
        · next hscoped => rw [editOr, hnone hscoped, Option.getD_none]
        · rfl
      · exact Or.inr (by rw [blankEdit, if_pos hscoped, editOr, hscope, Option.getD_some])

/-- What an edit makes of a segment among the elements `names`. -/
def edited (d : Dialect) (edit : List Text → Token → Text) (names : List Text) (s : Segment) :
    Segment :=
  if s.token.isStart = true ∧ d.withholds names = false then s.retag (edit names.tail s.token)
  else s

section

variable {σ : Type} {d : Dialect} {act : σ → Token → σ × Action} {flags : σ → List Text → Prop}
  {edit : List Text → Token → Text} {opened names names' : List Text} {s s' : Segment} {tag : Text}
  {memory : σ}

theorem edited_of_withholds (h : d.withholds names = true) : edited d edit names s = s :=
  if_neg fun hpart => by cases h.symm.trans hpart.2

theorem edited_of_not_isStart (h : s.token.isStart = false) : edited d edit names s = s :=
  if_neg fun hpart => by cases h.symm.trans hpart.1

theorem edited_of_isStart (h : s.token.isStart = true) (hnames : d.withholds names = false) :
    edited d edit names s = s.retag (edit names.tail s.token) :=
  if_pos ⟨h, hnames⟩

theorem edited_eq (d : Dialect) (edit : List Text → Token → Text) (names : List Text) (s : Segment) :
    ∃ text, edited d edit names s = s.retag text := by
  rw [edited]
  split
  · exact ⟨_, rfl⟩
  · exact ⟨s.token.text, rfl⟩

namespace Edits

variable (h : Edits d act flags edit)

include h

/-- What an edit does to a segment. -/
theorem keeps (names : List Text) (s : Segment) :
    Segment.Keeps act (fun memory opened => flags memory opened ∧ d.withholds opened = false)
      (d.withholds · = true) (fun names s s' => s' = edited d edit names s) names s where
  sheltered := fun hnames => (edited_of_withholds hnames).symm
  step := by
    rintro memory opened ⟨hflags, hopened⟩ rfl
    cases hstart : s.token.isStart with
    | false =>
      obtain ⟨memory', hact, hflags'⟩ := h.other hstart hflags
      rw [hact]
      exact ⟨(edited_of_not_isStart hstart).symm, hflags', Dialect.withholds_openAfter hopened
        fun hpart => by cases hstart.symm.trans hpart⟩
    | true =>
      have haround : Segment.around opened s.token = s.token.name :: opened := if_pos hstart
      by_cases hblock : s.token.localName = d.declarations
      · rw [h.block hstart hblock]
        exact ⟨hstart, haround ▸ Dialect.withholds_of_block hblock opened, hflags, hopened⟩
      · obtain ⟨memory', action, hact, hflags', hcases⟩ := h.start hstart hblock hflags
        have hnames : d.withholds (s.token.name :: opened) = false :=
          (Dialect.withholds_of_not_block hblock opened).trans hopened
        have hedited : edited d edit (Segment.around opened s.token) s =
            s.retag (edit opened s.token) := by
          rw [haround, edited_of_isStart hstart hnames, List.tail_cons]
        have hopened' := Dialect.withholds_openAfter hopened fun _ => hblock
        rw [hact]
        rcases hcases with ⟨rfl, hsame⟩ | rfl
        · rw [hsame] at hedited
          exact ⟨hedited.symm, hflags', hopened'⟩
        · exact ⟨hedited.symm, hflags', hopened'⟩

/-- **A revision edits each segment among the elements around it.** -/
theorem revise_eq (hflags : flags memory []) (segments : List Segment) :
    Segment.revise act memory segments =
      Segment.sourceAll ((Segment.located [] segments).map fun p => edited d edit p.1 p.2) := by
  obtain ⟨segments', hrevised, hrelated⟩ := Segment.exists_revised
    (fun p _ => h.keeps p.1 p.2) (fun _ _ => Dialect.withholds_of_suffix) ⟨hflags, rfl⟩
  have heq : List.Forall₂ (fun s s' => s = s')
      ((Segment.located [] segments).map fun p => edited d edit p.1 p.2) segments' :=
    List.forall₂_map_left_iff.mpr (List.Forall₂.imp (fun _ _ => Eq.symm) hrelated)
  rw [List.forall₂_eq_eq_eq] at heq
  rw [hrevised, heq]

end Edits

/-! ## Texts that last -/

/-- A text that a start tag among the elements `opened` gets and then keeps. -/
structure Lasting (d : Dialect) (edit : List Text → Token → Text) (opened : List Text)
    (token : Token) (tag : Text) : Prop where
  isCut : Token.IsCut { token with text := tag }
  renames : d.Renames opened token.name (Token.name { token with text := tag })
  keeps : token.localName ≠ d.declarations → ∀ opened', d.Trims opened opened' →
    edit opened' { token with text := tag } = tag

/-- A segment that stays as it has become. -/
structure Steady (d : Dialect) (edit : List Text → Token → Text) (names : List Text)
    (s s' : Segment) : Prop extends Segment.Recut s s' where
  renames : s.token.isStart = true → d.Renames names.tail s.token.name s'.token.name
  keeps : ∀ names', d.Trims names names' → edited d edit names' s' = s'

theorem steady_of_not_isStart (hcut : s.token.IsCut) (h : s.token.isStart = false) :
    Steady d edit names s s where
  toRecut := Segment.recut_self hcut
  renames := fun _ => Or.inl rfl
  keeps := fun _ _ => edited_of_not_isStart h

section

variable (hsolid : trimEnd d.declarations = d.declarations)

include hsolid

theorem steady_of_withholds (hcut : s.token.IsCut) (h : d.withholds names = true) :
    Steady d edit names s s where
  toRecut := Segment.recut_self hcut
  renames := fun _ => Or.inl rfl
  keeps := fun _ htrims => edited_of_withholds (htrims.withholds hsolid h)

theorem Lasting.steady (h : Lasting d edit names.tail s.token tag)
    (hnames : names = s.token.name :: names.tail) : Steady d edit names s (s.retag tag) where
  toRecut := Segment.recut_retag h.isCut
  renames := fun _ => h.renames
  keeps := by
    intro names' htrims
    rw [edited]
    split
    · next hpart =>
      have hblock : s.token.localName ≠ d.declarations := by
        intro hblock
        have hwithheld : d.withholds names = true :=
          hnames ▸ Dialect.withholds_of_block hblock names.tail
        cases hpart.2.symm.trans (htrims.withholds hsolid hwithheld)
      have hkeeps : edit names'.tail (s.retag tag).token = tag :=
        h.keeps hblock names'.tail (by simpa using htrims.drop)
      rw [hkeeps]
      rfl
    · rfl

/-- **Segments stay as they have become** if the texts of start tags last. -/
theorem steady_edited (hcut : s.token.IsCut)
    (hnames : s.token.isStart = true → names = s.token.name :: names.tail)
    (hlasting : s.token.isStart = true → d.withholds names = false →
      Lasting d edit names.tail s.token (edit names.tail s.token)) :
    Steady d edit names s (edited d edit names s) := by
  cases hstart : s.token.isStart with
  | false =>
    rw [edited_of_not_isStart hstart]
    exact steady_of_not_isStart hcut hstart
  | true =>
    cases hwithholds : d.withholds names with
    | false =>
      rw [edited_of_isStart hstart hwithholds]
      exact (hlasting hstart hwithholds).steady hsolid (hnames hstart)
    | true =>
      rw [edited_of_withholds hwithholds]
      exact steady_of_withholds hsolid hcut hwithholds

end

/-- **Segments that are steady are not edited again.** -/
theorem map_edited_of_steady {segments segments' : List Segment}
    (h : Segment.Related (Steady d edit) [] segments segments') :
    ((Segment.located [] segments').map fun p => edited d edit p.1 p.2) = segments' := by
  have hlocated : List.Forall₂ (fun p p' => Steady d edit p.1 p.2 p'.2 ∧ d.Trims p.1 p'.1)
      (Segment.located [] segments) (Segment.located [] segments') :=
    h.located .nil (fun _ _ _ hs => hs.kind)
      (fun _ _ _ _ htrims hstart hs => .cons htrims (hs.renames hstart)) fun _ _ => Dialect.Trims.drop
  conv_rhs => rw [← Segment.map_snd_located [] segments']
  generalize Segment.located [] segments = located at hlocated
  generalize Segment.located [] segments' = located' at hlocated ⊢
  induction hlocated with
  | nil => rfl
  | cons hs _ ih => rw [List.map_cons, List.map_cons, ih, hs.1.keeps _ hs.2]

/-- **A text of steady segments is not revised again.** -/
theorem Edits.reviseText_of_steady (h : Edits d act flags edit) {t : Text} {segments : List Segment}
    (hplaced : ∀ memory token, act memory { token with start := 0 } = act memory token)
    (hflags : flags memory [])
    (hsteady : Segment.Related (Steady d edit) [] (scan t).segments segments) :
    reviseText act memory (Segment.sourceAll segments ++ (scan t).tail) =
      ⟨Segment.sourceAll segments ++ (scan t).tail, (scan t).isClean⟩ := by
  have hrecut := hsteady.forall₂ fun _ _ _ hs => hs.toRecut
  rw [reviseText_of_unplaced hplaced (segments_scan_recut hrecut), tail_scan_recut hrecut,
    isClean_scan_recut hrecut, h.revise_eq hflags, map_edited_of_steady hsteady]

/-! ## The list on the root -/

/-- Declaring a state gives the root's segment another text. -/
theorem declareState_recut {t : Text} {before after : List Segment} {root : Segment}
    (h : List.Forall₂ Segment.Recut (scan t).segments (before ++ root :: after))
    (hbefore : ∀ x ∈ before, x.token.isElement = false) (hroot : root.token.isStart = true)
    (state : Text) :
    declareState state (Segment.sourceAll (before ++ root :: after) ++ (scan t).tail) =
      ⟨Segment.sourceAll (before ++ root.retag (declaredTag state root.token) :: after) ++
        (scan t).tail, true⟩ := by
  rw [declareState_eq, editRoot_recut h hbefore hroot _ fun _ => rfl]
  rfl

section

variable {state t : Text} (h : Edits d act flags edit)
  (hsolid : trimEnd d.declarations = d.declarations) (hflags : flags memory [])
  (hany : ∃ s ∈ (scan t).segments, s.token.isElement = true)
  (hlasting : ∀ p ∈ Segment.located [] (scan t).segments, p.2.token.isStart = true →
    d.withholds p.1 = false → Lasting d edit p.1.tail p.2.token (edit p.1.tail p.2.token))
  (hroot : ∀ front s back, (scan t).segments = front ++ s :: back →
    (∀ x ∈ front, x.token.isElement = false) → s.token.isStart = true →
    ∀ root, root = edited d edit [s.token.name] s →
      Lasting d edit [] s.token (declaredTag state root.token) ∧
      declaredTag state (root.retag (declaredTag state root.token)).token =
        declaredTag state root.token)

include h hsolid hflags hany hlasting hroot

/-- A revised text, with its root. The segments are steady when the state is declared. -/
theorem Edits.exists_revised_root :
    ∃ before root after, (∀ x ∈ before, x.token.isElement = false) ∧ root.token.isStart = true ∧
      reviseText act memory t =
        ⟨Segment.sourceAll (before ++ root :: after) ++ (scan t).tail, (scan t).isClean⟩ ∧
      List.Forall₂ Segment.Recut (scan t).segments (before ++ root :: after) ∧
      Segment.Related (Steady d edit) [] (scan t).segments
        (before ++ root.retag (declaredTag state root.token) :: after) ∧
      declaredTag state (root.retag (declaredTag state root.token)).token =
        declaredTag state root.token := by
  have hsteady : Segment.Related
      (fun names s s' => s' = edited d edit names s ∧ Steady d edit names s s') [] (scan t).segments
      ((Segment.located [] (scan t).segments).map fun p => edited d edit p.1 p.2) := by
    refine List.forall₂_map_right_iff.mpr (List.forall₂_same.mpr fun p hp => ⟨rfl, ?_⟩)
    have hmem := Segment.mem_of_mem_located hp
    exact steady_edited hsolid ((Scan.divides_scanFrom 0 0 t).isCut p.2 hmem).token
      (Segment.cons_tail_of_mem_located hp) (hlasting p hp)
  have hrecut := hsteady.forall₂ fun _ _ _ h => h.2.toRecut
  obtain ⟨before, root, after, hsegments, hbefore, hstart⟩ := Segment.exists_root
    ((Segment.depthAfter_of_forall₂ hrecut).trans (Scan.depthAfter_scan t))
    (Segment.exists_element_of_forall₂ hrecut hany)
  rw [hsegments] at hsteady hrecut
  obtain ⟨front, s, back, hsplit, hfront, -, ⟨heq, hs⟩, hreplace⟩ :=
    hsteady.exists_root (fun _ _ _ h => h.2.kind) hbefore hstart
  have hstartOld : s.token.isStart = true := by
    rw [Token.isStart, ← hs.kind]
    exact hstart
  obtain ⟨hlast, hagain⟩ := hroot front s back hsplit hfront hstartOld root heq
  refine ⟨before, root, after, hbefore, hstart, ?_, hrecut, ?_, hagain⟩
  · rw [reviseText, h.revise_eq hflags, hsegments]
  · refine hreplace (fun _ _ _ h => h.2) _ ?_
    obtain ⟨text, htext⟩ := edited_eq d edit [s.token.name] s
    have hdeclared : root.retag (declaredTag state root.token) =
        s.retag (declaredTag state root.token) := by
      rw [heq, htext]
      rfl
    rw [hdeclared]
    exact Lasting.steady hsolid hlast rfl

/-- **An edit of states that is repeated does nothing** if the texts of start tags last,
also that of the root's tag after the state went into the root's list. -/
theorem Edits.andThen_declareState_twice
    (hplaced : ∀ memory token, act memory { token with start := 0 } = act memory token) :
    let create := fun t => (reviseText act memory t).andThen (declareState state)
    create (create t).text = create t := by
  obtain ⟨before, root, after, hbefore, hstart, hfirst, hrecut, hsteady, hagain⟩ :=
    h.exists_revised_root hsolid hflags hany hlasting hroot
  let declared := root.retag (declaredTag state root.token)
  have hcreate : (reviseText act memory t).andThen (declareState state) =
      ⟨Segment.sourceAll (before ++ declared :: after) ++ (scan t).tail, (scan t).isClean⟩ := by
    rw [hfirst, Outcome.andThen, declareState_recut hrecut hbefore hstart, Bool.and_true]
  have hself : declared.retag (declaredTag state declared.token) = declared :=
    congrArg root.retag hagain
  dsimp only
  rw [hcreate, h.reviseText_of_steady hplaced hflags hsteady, Outcome.andThen,
    declareState_recut (hsteady.forall₂ fun _ _ _ h => h.toRecut) hbefore hstart, hself,
    Bool.and_true]

end

end

end SkinMarkup
