import LGears.Library.Rooted
import LGears.GcVisit

/- The graph of the blocks: what the words of a block and the roots of a thread point to,
   and the states of which a collection may be started. -/
namespace LGears.Gc
open Rooted

/-- The header of the block to which a word points: the address of an environment, or an
    object. -/
def target (isEnv : Bool) (w : Nat) : Option Nat :=
  if isEnv then if w = 0 then none else some (w - BHDR_SIZE)
  else if isHeapPtr w then some (hdrOf w) else none

theorem target_object {w x : Nat} :
    target false w = some x ↔ isHeapPtr w = true ∧ hdrOf w = x := by
  simp [target]

theorem target_env {w x : Nat} : target true w = some x ↔ w ≠ 0 ∧ w - BHDR_SIZE = x := by
  simp [target]

/-- The words of a thread that thread_get_roots visits. -/
def Thread.roots (t : Thread) : List (Bool × Nat) :=
  (true, t.env) :: (List.range t.opStackIdx).map (fun i => (false, t.opstack i)) ++
    [(true, t.closure), (false, t.libCache), (false, t.exceptionHandlers)] ++
    t.localRoots.map fun w => (false, w)

def RootOf (t : Thread) (a : Nat) : Prop := ∃ r ∈ t.roots, target r.1 r.2 = some a

/-- The block at a has a pointer to the one at c. -/
def PointsTo (cells : Cells) (a c : Nat) : Prop :=
  ∃ b, cells a = some b ∧ ∃ slot ∈ slots b, target slot.isEnv (b.words slot.index) = some c

/-- The blocks that the thread can reach. -/
def Reach (t : Thread) (h : Heap) : Nat → Prop := Reached (RootOf t) (PointsTo h.cells)

/-- The blocks that can be reached from the roots or from the old space. -/
def ReachOrOld (t : Thread) (h : Heap) : Nat → Prop :=
  Reached (fun a => RootOf t a ∨ a ∈ h.old.hdrs) (PointsTo h.cells)

/-- A block whose words are where its visitor looks for them. -/
def Readable (cells : Cells) (a : Nat) : Prop :=
  ∀ b, cells a = some b → ∀ slot ∈ slots b, 8 * slot.index < b.size

/-- Every pointer that a collection may meet is aimed at the payload of a block. -/
structure Aimed (t : Thread) (h : Heap) : Prop where
  block : ∀ a, ReachOrOld t h a → Young h a ∨ a ∈ h.old.hdrs
  readable : ∀ a, ReachOrOld t h a → Readable h.cells a
  env : t.heapEnv → t.env ≠ 0

/-- A heap between two collections. -/
structure Quiet (h : Heap) : Prop where
  layout : Layout h
  present : ∀ a b, Held h a → h.cells a = some b → b.forward = false
  future : h.futureSurvived.hdrs = []
  remembered : h.remembered = []
  oldMap : h.oldMap = none

structure WellFormed (t : Thread) (h : Heap) : Prop where
  quiet : Quiet h
  aimed : Aimed t h

theorem Reach.orOld {t : Thread} {h : Heap} {a : Nat} (reach : Reach t h a) : ReachOrOld t h a :=
  reach.mono fun _ => .inl

/-- A thread without roots. -/
def Thread.idle : Thread :=
  ⟨0, fun _ => 0, 0, 0, 0, 0, [], false, .stack 0⟩

theorem aimed_idle {h : Heap} (empty : h.old.hdrs = []) : Aimed .idle h := by
  have nothing : ∀ a, ¬ ReachOrOld .idle h a := by
    intro a reach
    induction reach with
    | edge _ _ never => exact never
    | root root =>
      rcases root with root | member
      · obtain ⟨r, member, points⟩ := root
        simp only [Thread.roots, Thread.idle, List.range_zero, List.map_nil, List.append_nil,
          List.cons_append, List.nil_append, List.mem_cons, List.not_mem_nil, or_false] at member
        rcases member with rfl | rfl | rfl | rfl <;> simp [target, isHeapPtr] at points
      · rw [empty] at member
        cases member
  constructor
  · exact fun a reach => absurd reach (nothing a)
  · exact fun a reach => absurd reach (nothing a)
  · intro never
    cases never

end LGears.Gc
