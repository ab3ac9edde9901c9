import Mathlib.Algebra.Ring.Nat
import Zuri.Lsp.EditWalk
import Zuri.Lsp.LineRuns

/-!
The line edits of two texts: the steps of the edit script that delete or insert, those that follow
each other as one edit. They are whole lines, make the second text of the first, and no other
script of whole lines needs fewer.
-/

namespace Zuri.Lsp

open EditGraph

/-- An edit `{ start, end, text }`. -/
structure TextEdit where
  start : Nat
  stop : Nat
  text : List Char

/-- The offsets appended for some lines: where each starts, and where the last ends. -/
def lineOffsets (start : Nat) : List (List Char) → List Nat
  | [] => [start]
  | line :: rest => start :: lineOffsets (start + line.length) rest

/-- The variables of the loop over the steps. -/
structure Grouping where
  edits : List TextEdit
  current : Option TextEdit
  next : Nat

namespace Grouping

/-- The edit that a deleted or inserted line belongs to. -/
def opened (offsets : List Nat) (g : Grouping) : TextEdit :=
  g.current.getD ⟨offsets.getD g.next 0, offsets.getD g.next 0, []⟩

/-- One step of the loop. -/
def step (offsets : List Nat) (b : List (List Char)) (g : Grouping) : Step → Grouping
  | .keep i _ => ⟨g.edits ++ g.current.toList, none, i + 1⟩
  | .delete i =>
      let current := g.opened offsets
      ⟨g.edits, some { current with stop := offsets.getD (i + 1) 0 }, i + 1⟩
  | .insert j =>
      let current := g.opened offsets
      ⟨g.edits, some { current with text := current.text ++ b.getD j [] }, g.next⟩

end Grouping

/-- `line_edits`. -/
def lineEdits (before after : List Char) : List TextEdit :=
  if before = after then []
  else
    let a := linesWithBreaks before
    let b := linesWithBreaks after
    let g := (editScript a b).foldl (Grouping.step (lineOffsets 0 a) b) ⟨[], none, 0⟩
    g.edits ++ g.current.toList

/-- Edits in order that do not overlap. -/
def Ordered : Nat → List TextEdit → Prop
  | _, [] => True
  | o, edit :: rest => o ≤ edit.start ∧ edit.start ≤ edit.stop ∧ Ordered edit.stop rest

/-- A text with ordered edits applied to what is left of it from an offset on. -/
def applyFrom (before : List Char) : Nat → List TextEdit → List Char
  | o, [] => before.drop o
  | o, edit :: rest =>
      slice before o edit.start ++ edit.text ++ applyFrom before edit.stop rest

/-- How many lines an edit deletes and inserts. -/
def TextEdit.lines (before : List Char) (edit : TextEdit) : Nat :=
  (textLines (slice before edit.start edit.stop)).length + (textLines edit.text).length

/-- Some lines that follow each other in both texts: those of the first are replaced by those of
the second. -/
structure Block where
  x₀ : Nat
  x₁ : Nat
  y₀ : Nat
  y₁ : Nat

section Offsets

/-- The offset after some lines. -/
def offsetAt (a : List (List Char)) (x : Nat) : Nat := (a.take x).flatten.length

theorem lineOffsets_getD (a : List (List Char)) (start : Nat) {x : Nat} (hx : x ≤ a.length) :
    (lineOffsets start a).getD x 0 = start + offsetAt a x := by
  induction a generalizing start x with
  | nil =>
    obtain rfl : x = 0 := by simpa using hx
    rfl
  | cons line rest ih =>
    cases x with
    | zero => rfl
    | succ x =>
      rw [lineOffsets, List.getD_cons_succ, ih _ (by simpa using hx), offsetAt, offsetAt,
        List.take_succ_cons, List.flatten_cons, List.length_append, Nat.add_assoc]

theorem offsetAt_mono (a : List (List Char)) {x₀ x₁ : Nat} (hle : x₀ ≤ x₁) :
    offsetAt a x₀ ≤ offsetAt a x₁ := by
  have hcut : (a.take x₁).take x₀ ++ (a.take x₁).drop x₀ = a.take x₁ := List.take_append_drop _ _
  rw [List.take_take, Nat.min_eq_left hle] at hcut
  rw [offsetAt, offsetAt, ← hcut, List.flatten_append, List.length_append]
  exact Nat.le_add_right _ _

theorem take_offsetAt (a : List (List Char)) (x : Nat) :
    a.flatten.take (offsetAt a x) = (a.take x).flatten := by
  have hcut : (a.take x).flatten ++ (a.drop x).flatten = a.flatten := by
    rw [← List.flatten_append, List.take_append_drop]
  rw [← hcut, offsetAt, List.take_left]

theorem drop_offsetAt (a : List (List Char)) (x : Nat) :
    a.flatten.drop (offsetAt a x) = (a.drop x).flatten := by
  have hcut : (a.take x).flatten ++ (a.drop x).flatten = a.flatten := by
    rw [← List.flatten_append, List.take_append_drop]
  rw [← hcut, offsetAt, List.drop_left]

theorem slice_offsetAt (a : List (List Char)) {x₀ x₁ : Nat} (hle : x₀ ≤ x₁) :
    slice a.flatten (offsetAt a x₀) (offsetAt a x₁) = ((a.take x₁).drop x₀).flatten := by
  have hsame : offsetAt a x₀ = offsetAt (a.take x₁) x₀ := by
    rw [offsetAt, offsetAt, List.take_take, Nat.min_eq_left hle]
  rw [slice, take_offsetAt, hsame, drop_offsetAt]

end Offsets

section Blocks

variable {a b : List (List Char)}

/-- The edit of a block. -/
def Block.edit (a b : List (List Char)) (block : Block) : TextEdit :=
  ⟨offsetAt a block.x₀, offsetAt a block.x₁, ((b.take block.y₁).drop block.y₀).flatten⟩

/-- How many lines a block deletes and inserts. -/
def Block.size (block : Block) : Nat := (block.x₁ - block.x₀) + (block.y₁ - block.y₀)

/-- Blocks from the start of two lists to a point, with the lines between them the same in both
lists; the number is how many lines they delete and insert. -/
inductive Trail (a b : List (List Char)) : List Block → Nat → Nat → Nat → Prop where
  | start : Trail a b [] 0 0 0
  | keep {blocks : List Block} {x y n : Nat} : Trail a b blocks x y n → Match a b x y →
      Trail a b blocks (x + 1) (y + 1) n
  | block {blocks : List Block} {block : Block} {n : Nat} :
      Trail a b blocks block.x₀ block.y₀ n → block.x₀ ≤ block.x₁ → block.y₀ ≤ block.y₁ →
      block.x₁ ≤ a.length → block.y₁ ≤ b.length →
      Trail a b (blocks ++ [block]) block.x₁ block.y₁ (n + block.size)

/-- What the loop over the steps has made of the steps to a point. -/
inductive Grouped (a b : List (List Char)) : Grouping → Nat → Nat → Nat → Prop where
  | closed {blocks : List Block} {x y n : Nat} : Trail a b blocks x y n →
      Grouped a b ⟨blocks.map (Block.edit a b), none, x⟩ x y n
  | opened {blocks : List Block} {x₀ x₁ y₀ y₁ n : Nat} : Trail a b blocks x₀ y₀ n → x₀ ≤ x₁ →
      y₀ ≤ y₁ → x₁ ≤ a.length → y₁ ≤ b.length →
      Grouped a b ⟨blocks.map (Block.edit a b), some (Block.edit a b ⟨x₀, x₁, y₀, y₁⟩), x₁⟩ x₁ y₁
        (n + Block.size ⟨x₀, x₁, y₀, y₁⟩)

theorem take_succ_flatten {a : List (List Char)} {x x₀ : Nat} {line : List Char}
    (hline : a[x]? = some line) (hle : x₀ ≤ x) :
    ((a.take (x + 1)).drop x₀).flatten = ((a.take x).drop x₀).flatten ++ line := by
  have hlt := (List.getElem?_eq_some_iff.1 hline).1
  rw [List.take_add_one, hline, List.drop_append_of_le_length (by rw [List.length_take]; omega),
    List.flatten_append]
  simp

theorem drop_take_self (b : List (List Char)) (y : Nat) : (b.take y).drop y = [] :=
  List.drop_of_length_le (List.length_take_le y b)

section Grouping

variable {g : Grouping} {x y n : Nat}

theorem Grouped.keep (hgrouped : Grouped a b g x y n) (hmatch : Match a b x y) :
    Grouped a b (g.step (lineOffsets 0 a) b (.keep x y)) (x + 1) (y + 1) n := by
  cases hgrouped with
  | closed htrail =>
    simp only [Grouping.step, Option.toList_none, List.append_nil]
    exact .closed (.keep htrail hmatch)
  | @opened blocks x₀ _ y₀ _ n htrail hx hy hxa hyb =>
    have hblock : Trail a b (blocks ++ [⟨x₀, x, y₀, y⟩]) x y (n + Block.size ⟨x₀, x, y₀, y⟩) :=
      .block htrail hx hy hxa hyb
    have hclosed := Grouped.closed (.keep hblock hmatch)
    rw [List.map_append] at hclosed
    exact hclosed

theorem Trail.within {blocks : List Block} (htrail : Trail a b blocks x y n) :
    x ≤ a.length ∧ y ≤ b.length := by
  cases htrail with
  | start => exact ⟨Nat.zero_le _, Nat.zero_le _⟩
  | keep _ hmatch => exact hmatch.within
  | block _ _ _ hx hy => exact ⟨hx, hy⟩

/-- The edit that the next line deleted or inserted belongs to ends at the point reached. -/
theorem Grouped.last_block (hgrouped : Grouped a b g x y n) :
    ∃ blocks x₀ y₀ m, Trail a b blocks x₀ y₀ m ∧ x₀ ≤ x ∧ y₀ ≤ y ∧ x ≤ a.length ∧ y ≤ b.length ∧
      n = m + Block.size ⟨x₀, x, y₀, y⟩ ∧ g.edits = blocks.map (Block.edit a b) ∧ g.next = x ∧
      g.opened (lineOffsets 0 a) = Block.edit a b ⟨x₀, x, y₀, y⟩ := by
  cases hgrouped with
  | @closed blocks _ _ _ htrail =>
    obtain ⟨hx, hy⟩ := htrail.within
    refine ⟨blocks, x, y, n, htrail, Nat.le_refl x, Nat.le_refl y, hx, hy, ?_, rfl, rfl, ?_⟩
    · simp [Block.size]
    · simp only [Grouping.opened, Option.getD_none, Block.edit, lineOffsets_getD a 0 hx,
        Nat.zero_add, drop_take_self, List.flatten_nil]
  | @opened blocks x₀ _ y₀ _ m htrail hx₀ hy₀ hx hy =>
    exact ⟨blocks, x₀, y₀, m, htrail, hx₀, hy₀, hx, hy, rfl, rfl, rfl, rfl⟩

theorem Grouped.delete (hgrouped : Grouped a b g x y n) (hx : x < a.length) :
    Grouped a b (g.step (lineOffsets 0 a) b (.delete x)) (x + 1) y (n + 1) := by
  obtain ⟨blocks, x₀, y₀, m, htrail, hx₀, hy₀, -, hy, rfl, hedits, -, hopened⟩ :=
    hgrouped.last_block
  have hnext : (lineOffsets 0 a).getD (x + 1) 0 = offsetAt a (x + 1) := by
    rw [lineOffsets_getD a 0 hx, Nat.zero_add]
  have hsize : m + Block.size ⟨x₀, x, y₀, y⟩ + 1 = m + Block.size ⟨x₀, x + 1, y₀, y⟩ := by
    simp only [Block.size]
    omega
  rw [Grouping.step, hedits, hopened, hnext, hsize]
  exact .opened htrail (Nat.le_succ_of_le hx₀) hy₀ hx hy

theorem Grouped.insert (hgrouped : Grouped a b g x y n) (hy : y < b.length) :
    Grouped a b (g.step (lineOffsets 0 a) b (.insert y)) x (y + 1) (n + 1) := by
  obtain ⟨blocks, x₀, y₀, m, htrail, hx₀, hy₀, hx, -, rfl, hedits, hnext, hopened⟩ :=
    hgrouped.last_block
  have hline : b[y]? = some (b.getD y []) := by
    rw [List.getD_eq_getElem _ _ hy]
    exact List.getElem?_eq_getElem hy
  have hsize : m + Block.size ⟨x₀, x, y₀, y⟩ + 1 = m + Block.size ⟨x₀, x, y₀, y + 1⟩ := by
    simp only [Block.size]
    omega
  have htext := take_succ_flatten hline hy₀
  rw [Grouping.step, hedits, hopened, hnext, hsize]
  have hgrown := Grouped.opened htrail hx₀ (Nat.le_succ_of_le hy₀) hx hy
  simp only [Block.edit, htext] at hgrown
  exact hgrown

/-- The loop has made edits of all the steps it has passed. -/
theorem grouped_steps {steps : List Step} (hsteps : Steps a b steps x y n) :
    Grouped a b (steps.foldl (Grouping.step (lineOffsets 0 a) b) ⟨[], none, 0⟩) x y n := by
  induction hsteps with
  | start => exact .closed .start
  | keep _ hmatch ih =>
    rw [List.foldl_append]
    exact ih.keep hmatch
  | delete _ hx ih =>
    rw [List.foldl_append]
    exact ih.delete hx
  | insert _ hy ih =>
    rw [List.foldl_append]
    exact ih.insert hy

/-- The edits there are after the last step are those of a trail. -/
theorem Grouped.trail (hgrouped : Grouped a b g x y n) :
    ∃ blocks, Trail a b blocks x y n ∧
      g.edits ++ g.current.toList = blocks.map (Block.edit a b) := by
  cases hgrouped with
  | @closed blocks _ _ _ htrail => exact ⟨blocks, htrail, List.append_nil _⟩
  | @opened blocks x₀ _ y₀ _ m htrail hx₀ hy₀ hx hy =>
    refine ⟨blocks ++ [⟨x₀, x, y₀, y⟩], .block htrail hx₀ hy₀ hx hy, ?_⟩
    rw [List.map_append]
    rfl

end Grouping

section Trails

variable {blocks : List Block} {x y n : Nat}

theorem slice_drop (text : List Char) {o p : Nat} (hle : o ≤ p) :
    slice text o p ++ text.drop p = text.drop o := by
  have hcut : (text.drop o).take (p - o) ++ (text.drop o).drop (p - o) = text.drop o :=
    List.take_append_drop _ _
  rw [List.drop_drop, Nat.add_sub_cancel' hle] at hcut
  rw [slice, List.drop_take, hcut]

/-- Edits that are all past an offset leave the text before it. -/
theorem applyFrom_past {before : List Char} {edits : List TextEdit} {o p : Nat} (hle : o ≤ p)
    (hedits : Ordered p edits) : applyFrom before o edits = slice before o p ++
      applyFrom before p edits := by
  cases edits with
  | nil => exact (slice_drop before hle).symm
  | cons edit rest =>
    rw [applyFrom, applyFrom, slice_append before hle hedits.1]
    simp only [List.append_assoc]

theorem Ordered.weaken {edits : List TextEdit} {o p : Nat} (hle : o ≤ p)
    (hedits : Ordered p edits) : Ordered o edits := by
  cases edits with
  | nil => trivial
  | cons edit rest => exact ⟨Nat.le_trans hle hedits.1, hedits.2⟩

/-- The edits of a trail are in order and write the lines of the second text that it has passed,
whatever edits follow. -/
theorem Trail.apply (htrail : Trail a b blocks x y n) (rest : List TextEdit)
    (hrest : Ordered (offsetAt a x) rest) :
    Ordered 0 (blocks.map (Block.edit a b) ++ rest) ∧
      applyFrom a.flatten 0 (blocks.map (Block.edit a b) ++ rest) =
        (b.take y).flatten ++ applyFrom a.flatten (offsetAt a x) rest := by
  induction htrail generalizing rest with
  | start => exact ⟨hrest, rfl⟩
  | @keep blocks x y n _ hmatch ih =>
    obtain ⟨c, ha, hb⟩ := hmatch
    have hle := offsetAt_mono a (Nat.le_succ x)
    obtain ⟨hordered, happly⟩ := ih rest (hrest.weaken hle)
    refine ⟨hordered, ?_⟩
    have hline := take_succ_flatten ha (Nat.le_refl x)
    have hlines := take_succ_flatten hb (Nat.zero_le y)
    rw [drop_take_self] at hline
    rw [List.drop_zero, List.drop_zero] at hlines
    rw [happly, applyFrom_past hle hrest, slice_offsetAt a (Nat.le_succ x), hline, hlines,
      List.flatten_nil, List.nil_append, List.append_assoc]
  | @block blocks block n _ hx hy _ _ ih =>
    obtain ⟨hordered, happly⟩ := ih (block.edit a b :: rest)
      ⟨Nat.le_refl _, offsetAt_mono a hx, hrest⟩
    rw [List.map_append, List.map_singleton, List.append_assoc, List.singleton_append]
    refine ⟨hordered, ?_⟩
    have hlines : (b.take block.y₀).flatten ++ ((b.take block.y₁).drop block.y₀).flatten =
        (b.take block.y₁).flatten := by
      rw [← List.flatten_append]
      congr 1
      rw [← Nat.min_eq_left hy, ← List.take_take, Nat.min_eq_left hy]
      exact List.take_append_drop _ _
    have hnone : slice a.flatten (offsetAt a block.x₀) (offsetAt a block.x₀) = [] := by
      rw [slice_offsetAt a (Nat.le_refl _), drop_take_self, List.flatten_nil]
    rw [happly, applyFrom, Block.edit, hnone, List.nil_append, ← List.append_assoc, hlines]

/-- Every edit of a trail is that of a block within both lists. -/
theorem Trail.blocks_within (htrail : Trail a b blocks x y n) :
    ∀ block ∈ blocks, block.x₀ ≤ block.x₁ ∧ block.y₀ ≤ block.y₁ ∧ block.x₁ ≤ a.length ∧
      block.y₁ ≤ b.length := by
  induction htrail with
  | start => exact fun block hmem => absurd hmem List.not_mem_nil
  | keep _ _ ih => exact ih
  | @block blocks last n _ hx hy hxa hyb ih =>
    intro block hmem
    rcases List.mem_append.1 hmem with hmem | hmem
    · exact ih block hmem
    · obtain rfl := List.mem_singleton.1 hmem
      exact ⟨hx, hy, hxa, hyb⟩

theorem Trail.size (htrail : Trail a b blocks x y n) : (blocks.map Block.size).sum = n := by
  induction htrail with
  | start => rfl
  | keep _ _ ih => exact ih
  | block _ _ _ _ _ ih => rw [List.map_append, List.sum_append, ih]; simp

end Trails

/-- Steps that lead to a point are a script for the lines passed. -/
theorem Steps.script {steps : List Step} {x y n : Nat} (hsteps : Steps a b steps x y n) :
    Script (a.take x) (b.take y) n := by
  induction hsteps with
  | start => exact .nil
  | keep _ hmatch ih =>
    obtain ⟨c, ha, hb⟩ := hmatch
    rw [List.take_add_one, List.take_add_one, ha, hb]
    exact ih.append (.keep c .nil)
  | @delete _ x y n _ hx ih =>
    rw [List.take_add_one, List.getElem?_eq_getElem hx]
    have hgrown := ih.append (.delete a[x] .nil)
    rw [List.append_nil] at hgrown
    exact hgrown
  | @insert _ x y n _ hy ih =>
    rw [List.take_add_one, List.getElem?_eq_getElem hy]
    have hgrown := ih.append (.insert b[y] .nil)
    rw [List.append_nil] at hgrown
    exact hgrown

end Blocks

/-- What line edits are to be. -/
structure ShortestEdits (before after : List Char) (edits : List TextEdit) : Prop where
  ordered : Ordered 0 edits
  /-- They start and end where a line starts or the text ends. -/
  bounds : ∀ edit ∈ edits, (IsStart before edit.start ∨ edit.start = before.length) ∧
    (IsStart before edit.stop ∨ edit.stop = before.length)
  applied : applyFrom before 0 edits = after
  /-- They delete and insert as few lines as a script of the lines of both texts can. -/
  least : IsLeast {n | Script (textLines before) (textLines after) n}
    (edits.map (TextEdit.lines before)).sum

/-- The line edits of any two texts are a script of whole lines that makes the second of the first,
and a shortest one. -/
theorem lineEdits_shortest (before after : List Char) :
    ShortestEdits before after (lineEdits before after) := by
  by_cases hsame : before = after
  · subst hsame
    have hkeep : ∀ lines : List (List Char), Script lines lines 0 := fun lines => by
      induction lines with
      | nil => exact .nil
      | cons line rest ih => exact .keep line ih
    rw [lineEdits, if_pos rfl]
    exact ⟨trivial, fun edit hmem => absurd hmem List.not_mem_nil, rfl, hkeep _,
      fun n _ => Nat.zero_le n⟩
  · obtain ⟨n, hsteps, hleast⟩ := editScript_steps (textLines before) (textLines after)
    obtain ⟨blocks, htrail, hedits⟩ := (grouped_steps hsteps).trail
    have hlines : lineEdits before after =
        blocks.map (Block.edit (textLines before) (textLines after)) := by
      rw [lineEdits, if_neg hsame, linesWithBreaks_eq, linesWithBreaks_eq]
      exact hedits
    have hbefore := textLines_flatten before
    have hafter := textLines_flatten after
    have hlined := lined_textLines before
    have hlinedAfter := lined_textLines after
    have hwithin := htrail.blocks_within
    obtain ⟨hordered, happly⟩ := htrail.apply [] trivial
    rw [List.append_nil] at hordered happly
    have hboundary : ∀ x, IsStart before (offsetAt (textLines before) x) ∨
        offsetAt (textLines before) x = before.length := fun x => by
      have hline := hlined.boundary x
      rwa [hbefore] at hline
    have hcount : ∀ block ∈ blocks, TextEdit.lines before
        (Block.edit (textLines before) (textLines after) block) = block.size := by
      intro block hmem
      obtain ⟨hx, hy, hxa, hyb⟩ := hwithin block hmem
      have hslice := slice_offsetAt (textLines before) hx
      rw [hbefore] at hslice
      rw [TextEdit.lines, Block.edit, hslice, ((hlined.take _).drop _).lines,
        ((hlinedAfter.take _).drop _).lines, Block.size, List.length_drop, List.length_drop,
        List.length_take, List.length_take, Nat.min_eq_left hxa, Nat.min_eq_left hyb]
    have hsum : ((blocks.map (Block.edit (textLines before) (textLines after))).map
        (TextEdit.lines before)).sum = n := by
      rw [List.map_map, ← htrail.size]
      exact congrArg List.sum (List.map_congr_left hcount)
    rw [hlines]
    refine ⟨hordered, fun edit hmem => ?_, ?_, ?_⟩
    · obtain ⟨block, -, rfl⟩ := List.mem_map.1 hmem
      exact ⟨hboundary block.x₀, hboundary block.x₁⟩
    · rw [hbefore, List.take_length, hafter] at happly
      rw [happly, applyFrom, List.drop_of_length_le, List.append_nil]
      rw [offsetAt, List.take_length, hbefore]
    · rw [hsum]
      have hscript := hsteps.script
      rw [List.take_length, List.take_length] at hscript
      exact ⟨hscript, hleast⟩

end Zuri.Lsp
