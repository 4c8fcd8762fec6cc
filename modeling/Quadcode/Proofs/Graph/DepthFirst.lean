import Mathlib.Data.Finset.Card
import Mathlib.Data.Finset.Range
import Mathlib.Logic.Relation
import Quadcode.Graph.Order

/-!
# What a depth-first walk finds

A visit enters exactly the blocks that can be reached without crossing a block entered before. They
are left behind in an order in which each block stands after a block that leads to it, the visited
one apart, so the reverse postorder of a graph lists the blocks reachable from its entry, each once,
and behind one of its predecessors. An edge that does not go forward in it closes a cycle.
-/

namespace Quadcode

open List Std.ExtTreeSet

/-- A block leads to another in some steps. -/
abbrev Onward (next : BlockId → List BlockId) : BlockId → BlockId → Prop := Relation.ReflTransGen fun a b => b ∈ next a

/-- Each item is of the roots, or an item before it leads to it. -/
def Hangs (next : BlockId → List BlockId) : (roots : BlockId → Prop) → List BlockId → Prop
  | _, [] => True
  | roots, b :: rest => roots b ∧ Hangs next (fun x => roots x ∨ x ∈ next b) rest

variable {b x : BlockId} {next : BlockId → List BlockId}

namespace Hangs

variable {roots roots' : BlockId → Prop} {l l' : List BlockId}

theorem mono (sub : ∀ x, roots x → roots' x) (h : Hangs next roots l) : Hangs next roots' l := by
  induction l generalizing roots roots' with
  | nil => trivial
  | cons b rest ih => exact ⟨sub b h.1, ih (fun x => Or.imp_left (sub x)) h.2⟩

theorem append (h : Hangs next roots l) (h' : Hangs next roots l') : Hangs next roots (l ++ l') := by
  induction l generalizing roots with
  | nil => exact h'
  | cons b rest ih => exact ⟨h.1, ih h.2 (h'.mono fun _ => Or.inl)⟩

/-- An item that is no root has a predecessor among the items before it. -/
theorem before (h : Hangs next roots l) {front back : List BlockId} (at_x : l = front ++ x :: back) :
    roots x ∨ ∃ p ∈ front, x ∈ next p := by
  induction front generalizing roots l with
  | nil =>
    subst at_x
    exact .inl h.1
  | cons b rest ih =>
    subst at_x
    obtain (root | direct) | ⟨p, member, leads⟩ := ih h.2 rfl
    · exact .inl root
    · exact .inr ⟨b, mem_cons_self, direct⟩
    · exact .inr ⟨p, mem_cons_of_mem b member, leads⟩

/-- Every item is reached from a root. -/
theorem reached (h : Hangs next roots l) (member : x ∈ l) : ∃ r, roots r ∧ Onward next r x := by
  induction l generalizing roots with
  | nil => cases member
  | cons b rest ih =>
    cases member with
    | head => exact ⟨_, h.1, .refl⟩
    | tail _ later =>
      obtain ⟨r, root | direct, path⟩ := ih h.2 later
      · exact ⟨r, root, path⟩
      · exact ⟨b, h.1, .head direct path⟩

end Hangs

/-- What an item leads to comes later in the list or in `left`, or leads back to the item, or is of `under`. -/
def Falls (next : BlockId → List BlockId) (under : BlockId → Prop) (left : List BlockId) : List BlockId → Prop
  | [] => True
  | b :: rest => (∀ s ∈ next b, s ∈ rest ++ left ∨ Onward next s b ∨ under s) ∧ Falls next under left rest

namespace Falls

variable {under under' : BlockId → Prop} {left l l' : List BlockId}

theorem mono (h : Falls next under left l) (sub : ∀ b ∈ l, ∀ s, under s → Onward next s b ∨ under' s) :
    Falls next under' left l := by
  induction l with
  | nil => trivial
  | cons b rest ih =>
    refine ⟨fun s edge => ?_, ih h.2 fun c member => sub c (.tail b member)⟩
    rcases h.1 s edge with later | path | held
    · exact .inl later
    · exact .inr (.inl path)
    · exact .inr (sub b mem_cons_self s held)

theorem append (h : Falls next under (l' ++ left) l) (h' : Falls next under left l') :
    Falls next under left (l ++ l') := by
  induction l with
  | nil => exact h'
  | cons b rest ih => exact ⟨by simpa using h.1, ih h.2⟩

theorem behind (h : Falls next under left l) {front back : List BlockId} {s : BlockId} (at_x : l = front ++ x :: back)
    (edge : s ∈ next x) : s ∈ back ++ left ∨ Onward next s x ∨ under s := by
  induction front generalizing l with
  | nil =>
    subst at_x
    exact h.1 s edge
  | cons b rest ih =>
    subst at_x
    exact ih h.2 rfl

end Falls

namespace Walk

variable {n : Nat} {w w' w'' : Walk} {new new' : List BlockId}

/-- How many of the first `n` blocks are still to be entered. -/
def room (n : Nat) (w : Walk) : Nat := ((Finset.range n).filter (· ∉ w.entered)).card

theorem room_le : room n w ≤ n := (Finset.card_filter_le _ _).trans_eq (Finset.card_range n)

/-- The blocks that are being visited. -/
def Open (w : Walk) (b : BlockId) : Prop := b ∈ w.entered ∧ b ∉ w.left

/-- A walk went on from `w` to `w'`, starting at roots, and left the blocks `new`. -/
structure Explored (next : BlockId → List BlockId) (roots : List BlockId) (w w' : Walk)
    (new : List BlockId) : Prop where
  left : w'.left = new ++ w.left
  entered : ∀ x, x ∈ w'.entered ↔ x ∈ w.entered ∨ x ∈ new
  fresh : ∀ x ∈ new, x ∉ w.entered
  nodup : new.Nodup
  closed : ∀ x ∈ new, ∀ s ∈ next x, s ∈ w'.entered
  hangs : Hangs next (· ∈ roots) new
  falls : Falls next w.Open w.left new
  met : ∀ r ∈ roots, r ∈ w'.entered

variable {roots : List BlockId} {depth : Nat} {among : BlockId → Prop}

theorem Explored.nothing (h : ∀ r ∈ roots, r ∈ w.entered) : Explored next roots w w [] :=
  ⟨rfl, by simp, by simp, .nil, by simp, trivial, trivial, h⟩

theorem Explored.room_le (h : Explored next roots w w' new) : w'.room n ≤ w.room n := by
  apply Finset.card_le_card
  intro x hx
  simp only [Finset.mem_filter, h.entered, not_or] at hx ⊢
  exact ⟨hx.1, hx.2.1⟩

theorem Explored.trans {more : List BlockId} (h : Explored next roots w w' new) (h' : Explored next more w' w'' new') :
    Explored next (roots ++ more) w w'' (new' ++ new) where
  left := by rw [h'.left, h.left, append_assoc]
  entered x := by rw [h'.entered, h.entered, mem_append, or_assoc, or_comm (a := x ∈ new)]
  fresh x member := by
    rcases mem_append.1 member with later | earlier
    · exact fun old => h'.fresh x later ((h.entered x).2 (.inl old))
    · exact h.fresh x earlier
  nodup := by
    refine nodup_append.2 ⟨h'.nodup, h.nodup, ?_⟩
    rintro x later y earlier rfl
    exact h'.fresh x later ((h.entered x).2 (.inr earlier))
  closed x member s leads := by
    rcases mem_append.1 member with later | earlier
    · exact h'.closed x later s leads
    · exact (h'.entered s).2 (.inl (h.closed x earlier s leads))
  hangs := (h'.hangs.mono fun _ => mem_append_right roots).append (h.hangs.mono fun _ => mem_append_left more)
  falls := by
    refine .append (h.left ▸ h'.falls.mono fun _ _ s open' => .inr ?_) h.falls
    rw [Open, h.entered, h.left, mem_append, not_or] at open'
    exact ⟨open'.1.resolve_right open'.2.1, open'.2.2⟩
  met r member := by
    rcases mem_append.1 member with first | second
    · exact (h'.entered r).2 (.inl (h.met r first))
    · exact h'.met r second

/-- Closes the visit of a block that was not entered before. -/
theorem Explored.close (unentered : b ∉ w.entered)
    (h : Explored next (next b) { w with entered := w.entered.insert b } w' new) :
    Explored next [b] w { w' with left := b :: w'.left } (b :: new) := by
  have entered_iff : ∀ x, x ∈ w'.entered ↔ x ∈ w.entered ∨ x ∈ b :: new := by
    intro x
    rw [h.entered, mem_insert, Nat.compare_eq_eq, mem_cons]
    grind
  have fresh_new : ∀ x ∈ new, x ≠ b ∧ x ∉ w.entered := by
    intro x member
    have := h.fresh x member
    rw [mem_insert, Nat.compare_eq_eq, not_or] at this
    exact ⟨fun same => this.1 same.symm, this.2⟩
  refine ⟨by simp [h.left], entered_iff, ?_, ?_, ?_, ?_, ⟨?_, h.falls.mono ?_⟩, ?_⟩
  · rintro x member
    rcases mem_cons.1 member with rfl | later
    · exact unentered
    · exact (fresh_new x later).2
  · exact nodup_cons.2 ⟨fun member => (fresh_new b member).1 rfl, h.nodup⟩
  · rintro x member s leads
    rcases mem_cons.1 member with rfl | later
    · exact h.met s leads
    · exact h.closed x later s leads
  · exact ⟨mem_singleton.2 rfl, h.hangs.mono fun _ => Or.inr⟩
  · intro s leads
    by_cases gone : s ∈ w.left
    · exact .inl (mem_append_right new gone)
    · rcases (entered_iff s).1 (h.met s leads) with old | _ | ⟨_, later⟩
      · exact .inr (.inr ⟨old, gone⟩)
      · exact .inr (.inl .refl)
      · exact .inl (mem_append_left w.left later)
  · -- Of the blocks being visited, only `b` is new, and whatever is found leads from it.
    intro x member s held
    obtain ⟨entered, kept⟩ := held
    rw [mem_insert, Nat.compare_eq_eq] at entered
    rcases entered with rfl | old
    · obtain ⟨r, first, path⟩ := h.hangs.reached member
      exact .inl (.head first path)
    · exact .inr ⟨old, kept⟩
  · intro r root
    rw [mem_singleton.1 root]
    exact (entered_iff b).2 (.inr mem_cons_self)

theorem room_insert_lt (bound : b < n) (unentered : b ∉ w.entered) :
    room n { w with entered := w.entered.insert b } < room n w := by
  apply Finset.card_lt_card
  refine ⟨fun x hx => ?_, fun sub => ?_⟩
  · simp only [Finset.mem_filter, mem_insert, not_or] at hx ⊢
    exact ⟨hx.1, hx.2.2⟩
  · have member := sub (Finset.mem_filter.2 ⟨Finset.mem_range.2 bound, unentered⟩)
    simp at member

/-- A visit with enough depth left explores from its block. All blocks in its reach are of `among`,
and they are among the first `n`. -/
theorem visit_explored (closed : ∀ x, among x → ∀ s ∈ next x, among s) (bounded : ∀ x, among x → x < n)
    (start : among b) (enough : room n w ≤ depth) : ∃ new, Explored next [b] w (visit next depth b w) new := by
  induction depth generalizing b w with
  | zero =>
    refine ⟨[], .nothing ?_⟩
    intro r root
    rw [mem_singleton.1 root]
    by_contra unentered
    have := room_insert_lt (bounded b start) unentered
    omega
  | succ depth ih =>
    rw [visit]
    split
    next old => exact ⟨[], .nothing fun r root => mem_singleton.1 root ▸ old⟩
    next unentered =>
      -- The room left after entering `b` suffices for each of the visits that follow.
      have fold : ∀ (ss : List BlockId) (w : Walk), (∀ s ∈ ss, among s) → room n w ≤ depth →
          ∃ new, Explored next ss w (ss.foldl (fun w s => visit next depth s w) w) new := by
        intro ss
        induction ss with
        | nil => exact fun w _ _ => ⟨[], .nothing (by simp)⟩
        | cons s ss ihs =>
          intro w inside small
          obtain ⟨new, first⟩ := ih (inside s mem_cons_self) small
          obtain ⟨new', others⟩ := ihs _ (fun x hx => inside x (mem_cons_of_mem s hx)) (first.room_le.trans small)
          exact ⟨new' ++ new, first.trans others⟩
      have small := room_insert_lt (bounded b start) unentered
      obtain ⟨new, explored⟩ := fold (next b) { w with entered := w.entered.insert b } (closed b start) (by omega)
      exact ⟨b :: new, explored.close unentered⟩

/-! ## The walk with a stack -/

@[simp]
theorem run_nil {fuel : Nat} : run next fuel [] w = w := by
  cases fuel <;> rfl

theorem visit_of_entered (old : b ∈ w.entered) : visit next depth b w = w := by
  cases depth with
  | zero => rfl
  | succ depth => rw [visit, if_pos old]

/-- The stack is back where it was once the block on its top was visited. A step follows an edge or leaves a block, so
three steps for each block that is entered suffice. -/
theorem run_visit (closed : ∀ x, among x → ∀ s ∈ next x, among s) (bounded : ∀ x, among x → x < n)
    (narrow : ∀ x, (next x).length ≤ 2) (start : among b) (unentered : b ∉ w.entered) (enough : room n w ≤ depth) :
    ∃ steps, steps + 3 * room n (visit next depth b w) ≤ 3 * room n w ∧ ∀ fuel stack,
      run next (steps + fuel) ((b, 0) :: stack) { w with entered := w.entered.insert b } =
        run next fuel stack (visit next depth b w) := by
  induction depth generalizing b w with
  | zero => exact absurd (room_insert_lt (bounded b start) unentered) (by omega)
  | succ depth ih =>
    -- The edges from the `i`-th on are followed one by one, and the block is left.
    have fold : ∀ (ss : List BlockId) (i : Nat) (w : Walk), (next b).drop i = ss → room n w ≤ depth →
        ∃ steps, steps + 3 * room n (ss.foldl (fun w s => visit next depth s w) w) ≤ 3 * room n w + ss.length + 1 ∧
          ∀ fuel stack, run next (steps + fuel) ((b, i) :: stack) w = run next fuel stack
            (let w := ss.foldl (fun w s => visit next depth s w) w; { w with left := b :: w.left }) := by
      intro ss
      induction ss with
      | nil =>
        intro i w rest small
        refine ⟨1, by simp; omega, fun fuel stack => ?_⟩
        rw [Nat.add_comm, run, getElem?_eq_none (drop_eq_nil_iff.1 rest)]
        rfl
      | cons s ss ihs =>
        intro i w rest small
        have edge : (next b)[i]? = some s := by rw [← head?_drop, rest, head?_cons]
        have rest : (next b).drop (i + 1) = ss := by rw [← tail_drop, rest, tail_cons]
        by_cases old : s ∈ w.entered
        · obtain ⟨steps, bound, runs⟩ := ihs (i + 1) w rest small
          rw [foldl_cons, visit_of_entered old, length_cons]
          refine ⟨steps + 1, by omega, fun fuel stack => ?_⟩
          rw [Nat.add_right_comm, run, edge, ← runs]
          exact if_pos old
        · obtain ⟨first, less, visits⟩ := ih (closed b start s (mem_of_getElem? edge)) old small
          obtain ⟨steps, bound, runs⟩ := ihs (i + 1) (visit next depth s w) rest (by omega)
          rw [foldl_cons, length_cons]
          refine ⟨first + steps + 1, by omega, fun fuel stack => ?_⟩
          rw [Nat.add_right_comm, run, edge, ← runs, ← visits, Nat.add_assoc]
          exact if_neg old
    have small := room_insert_lt (bounded b start) unentered
    obtain ⟨steps, bound, runs⟩ := fold (next b) 0 { w with entered := w.entered.insert b } rfl (by omega)
    have degree := narrow b
    rw [visit, if_neg unentered]
    exact ⟨steps, by simp only [room] at *; omega, runs⟩

end Walk

namespace Graph

variable {g : Graph}

/-- Control can go from one block to another. -/
def Reaches (g : Graph) : BlockId → BlockId → Prop := Relation.ReflTransGen fun a b => b ∈ g.targets a

/-- Control stays in the arena. -/
def Inside (g : Graph) : Prop := ∀ b, g.Reaches g.entry b → b < g.blocks.size

theorem inside_of_targets (start : g.entry < g.blocks.size)
    (closed : ∀ b < g.blocks.size, ∀ c ∈ g.targets b, c < g.blocks.size) : g.Inside := by
  intro b path
  induction path with
  | refl => exact start
  | tail _ edge ih => exact closed _ ih _ edge

theorem targets_length_le (g : Graph) (b : BlockId) : (g.targets b).length ≤ 2 := by
  unfold targets Tail.targets
  cases g.tail b <;> simp [Tail.successors]

/-- The walk with a stack lists the blocks in the order of the nested visits. -/
theorem Inside.reversePostorder_eq (inside : g.Inside) :
    g.reversePostorder = (Walk.visit g.targets g.blocks.size g.entry {}).left := by
  obtain ⟨steps, bound, runs⟩ := Walk.run_visit (w := {}) (fun x path s => Relation.ReflTransGen.tail path) inside
    g.targets_length_le .refl (by simp) Walk.room_le
  have room : Walk.room g.blocks.size {} ≤ g.blocks.size := Walk.room_le
  obtain ⟨rest, whole⟩ := Nat.exists_eq_add_of_le (show steps ≤ 3 * g.blocks.size by omega)
  rw [reversePostorder, whole, runs rest [], Walk.run_nil]

theorem Inside.explored (inside : g.Inside) :
    Walk.Explored g.targets [g.entry] {} (Walk.visit g.targets g.blocks.size g.entry {})
      g.reversePostorder := by
  have closed : ∀ x, g.Reaches g.entry x → ∀ s ∈ g.targets x, g.Reaches g.entry s := fun _ path _ edge => path.tail edge
  obtain ⟨new, explored⟩ := Walk.visit_explored (w := {}) closed inside .refl Walk.room_le
  have all : g.reversePostorder = new := by simpa [inside.reversePostorder_eq] using explored.left
  exact all ▸ explored

theorem Inside.reversePostorder_nodup (inside : g.Inside) : g.reversePostorder.Nodup := inside.explored.nodup

/-- The order lists the blocks that the entry reaches. -/
theorem Inside.mem_reversePostorder (inside : g.Inside) : b ∈ g.reversePostorder ↔ g.Reaches g.entry b := by
  have walked := inside.explored
  constructor
  · intro member
    obtain ⟨r, root, path⟩ := walked.hangs.reached member
    exact mem_singleton.1 root ▸ path
  · intro path
    have entered : b ∈ (Walk.visit g.targets g.blocks.size g.entry {}).entered := by
      induction path with
      | refl => exact walked.met _ mem_cons_self
      | tail _ edge ih =>
        have left := (walked.entered _).1 ih
        exact walked.closed _ (by simpa using left) _ edge
    simpa using (walked.entered b).1 entered

theorem Inside.head_reversePostorder (inside : g.Inside) : g.reversePostorder.head? = some g.entry := by
  have hangs := inside.explored.hangs
  have member := inside.mem_reversePostorder.2 .refl
  cases order : g.reversePostorder with
  | nil =>
    rw [order] at member
    cases member
  | cons b rest =>
    rw [order] at hangs
    rw [head?_cons, mem_singleton.1 hangs.1]

/-- The postorder lists the blocks that the entry reaches, each once and the entry last. Read backwards, every block
but the entry has a predecessor before it, and an edge that does not go forward is part of a cycle. -/
theorem postorder_depthFirst (inside : g.Inside) :
    g.postorder.Nodup ∧ (∀ b, b ∈ g.postorder ↔ g.Reaches g.entry b) ∧ g.postorder.getLast? = some g.entry ∧
      g.reversePostorder = g.postorder.reverse ∧
      ∀ front b back, g.reversePostorder = front ++ b :: back →
        (b ≠ g.entry → ∃ p ∈ front, b ∈ g.targets p) ∧ ∀ c ∈ g.targets b, c ∉ back → g.Reaches c b := by
  have walked := inside.explored
  refine ⟨nodup_reverse.2 walked.nodup, fun b => by rw [postorder, mem_reverse, inside.mem_reversePostorder],
    by rw [postorder, getLast?_reverse, inside.head_reversePostorder], reverse_reverse _ |>.symm,
    fun front b back split => ⟨fun other => ?_, fun c edge before => ?_⟩⟩
  · exact (walked.hangs.before split).resolve_left fun root => other (mem_singleton.1 root)
  · rcases walked.falls.behind split edge with later | path | held
    · exact absurd (by simpa using later) before
    · exact path
    · simp [Walk.Open] at held

/-- A graph whose edges are out of date. Both ways of a test lead from block 0 to block 2, which is in a loop with
block 3; that one is not laid out, and block 1 is but cannot be reached. -/
def stale : Graph where
  name := "stale"
  ret := none
  vars := #[.declare "n" .int .param]
  params := [0]
  blocks := #[
    { label := "start", tail := .branch .lt (.var 0) (.const (.int 5)) 2 2, preds := [4],
      succs := [(1, .fallthrough)] },
    { label := "lost", tail := .jump 2 },
    { label := "head", tail := .branch .lt (.var 0) (.const (.int 3)) 3 4, preds := [1, 1] },
    { label := "latch", tail := .branch .eq (.var 0) (.const (.int 0)) 2 3 },
    { label := "exit", succs := [(0, .unconditional)] }]
  layout := [1, 2, 0, 4]
  entry := 0

theorem stale_inside : stale.Inside := inside_of_targets (by decide) (by decide)

theorem stale_depthFirst : stale.Inside ∧ stale.postorder = [3, 4, 2, 0] ∧ (∃ p ∈ [0, 2, 4], 3 ∈ stale.targets p) ∧
    2 ∈ stale.targets 3 ∧ stale.Reaches 2 3 := by
  obtain ⟨-, -, -, -, order⟩ := postorder_depthFirst stale_inside
  obtain ⟨before, cycle⟩ := order [0, 2, 4] 3 [] (by decide +kernel)
  exact ⟨stale_inside, by decide +kernel, before (by decide), by decide, cycle 2 (by decide) not_mem_nil⟩

end Graph

end Quadcode
