import Mathlib.Data.List.Basic
import Mathlib.Tactic.Common
import Mathlib.Tactic.Ring

/- Binary formats: little-endian numbers, and readers that take bytes from a window.
   A reader reads a text when it consumes exactly that text, whatever follows it. -/
namespace Bytes

/-- The w bytes of n, least significant first. -/
def toLE : Nat → Nat → List UInt8
  | 0, _ => []
  | w + 1, n => UInt8.ofNat n :: toLE w (n / 256)

def ofLE : List UInt8 → Nat
  | [] => 0
  | b :: bs => b.toNat + 256 * ofLE bs

@[simp] theorem length_toLE (w n : Nat) : (toLE w n).length = w := by
  induction w generalizing n with
  | zero => rfl
  | succ w ih => simp [toLE, ih]

theorem ofLE_toLE {w n : Nat} (bound : n < 256 ^ w) : ofLE (toLE w n) = n := by
  induction w generalizing n with
  | zero =>
    have zero : n = 0 := by simpa using bound
    simp [toLE, ofLE, zero]
  | succ w ih =>
    have quotient : n / 256 < 256 ^ w := by
      rw [Nat.pow_succ] at bound
      omega
    simp only [toLE, ofLE, ih quotient, UInt8.toNat_ofNat']
    omega

/-- Memory from a pointer on, of which the first size bytes are given to be read. -/
@[ext]
structure Window where
  mem : List UInt8
  size : Nat
  inside : size ≤ mem.length

/-- The window over the whole of a text. -/
def Window.whole (bs : List UInt8) : Window := ⟨bs, bs.length, le_rfl⟩

/-- The window with a text before it. -/
def Window.push (bs : List UInt8) (w : Window) : Window :=
  ⟨bs ++ w.mem, bs.length + w.size, by have := w.inside; simp only [List.length_append]; omega⟩

@[simp] theorem Window.push_nil (w : Window) : w.push [] = w := by
  ext <;> simp [Window.push]

theorem Window.push_append (bs cs : List UInt8) (w : Window) :
    w.push (bs ++ cs) = (w.push cs).push bs := by
  apply Window.ext
  · simp [Window.push]
  · simp only [Window.push, List.length_append]
    omega

theorem Window.whole_append (bs cs : List UInt8) :
    Window.whole (bs ++ cs) = (Window.whole cs).push bs := by
  apply Window.ext <;> simp [Window.push, Window.whole]

abbrev Reader (ε α : Type) := StateT Window (Except ε) α

variable {ε α β : Type}

def failWith (e : ε) : Reader ε α := fun _ => .error e

/-- The next n bytes, or e when fewer are left. -/
def take (e : ε) (n : Nat) : Reader ε (List UInt8) := fun w =>
  if h : n ≤ w.size then
    .ok (w.mem.take n, ⟨w.mem.drop n, w.size - n, by
      have := w.inside
      simp only [List.length_drop]
      omega⟩)
  else .error e

def peek (e : ε) (n : Nat) : Reader ε (List UInt8) := fun w =>
  if n ≤ w.size then .ok (w.mem.take n, w) else .error e

/-- The address of the next byte: the memory that starts there. -/
def pointer : Reader ε (List UInt8) := fun w => .ok (w.mem, w)

/-- The reader consumes the text bs and ends with r. -/
def Reads (p : Reader ε α) (bs : List UInt8) (r : Except ε α) : Prop :=
  ∀ w : Window, p (w.push bs) = r.map fun a => (a, w)

theorem reads_pure (a : α) : Reads (pure a : Reader ε α) [] (.ok a) := by
  intro w
  show Except.ok (a, w.push []) = Except.ok (a, w)
  simp

theorem reads_bind {p : Reader ε α} {f : α → Reader ε β} {bs cs : List UInt8} {a : α}
    {r : Except ε β} (first : Reads p bs (.ok a)) (second : Reads (f a) cs r) :
    Reads (p >>= f) (bs ++ cs) r := by
  intro w
  rw [Window.push_append]
  show (p ((w.push cs).push bs)).bind _ = _
  rw [first (w.push cs)]
  exact second w

theorem reads_bind_error {p : Reader ε α} {f : α → Reader ε β} {bs : List UInt8} {e : ε}
    (cs : List UInt8) (first : Reads p bs (.error e)) :
    Reads (p >>= f) (bs ++ cs) (.error e) := by
  intro w
  rw [Window.push_append]
  show (p ((w.push cs).push bs)).bind _ = _
  rw [first (w.push cs)]
  rfl

theorem reads_bind_result {p : Reader ε α} {f : α → Reader ε β} {bs cs : List UInt8}
    {x : Except ε α} {k : α → Except ε β} (first : Reads p bs x)
    (second : ∀ a, x = .ok a → Reads (f a) cs (k a)) : Reads (p >>= f) (bs ++ cs) (x >>= k) := by
  cases x with
  | error e => exact reads_bind_error cs first
  | ok a => exact reads_bind first (second a rfl)

theorem reads_map {p : Reader ε α} {f : α → β} {bs : List UInt8} {r : Except ε α}
    (read : Reads p bs r) : Reads (f <$> p) bs (r.map f) := by
  intro w
  show (p (w.push bs)).bind _ = _
  rw [read w]
  cases r <;> rfl

theorem reads_failWith (e : ε) : Reads (failWith e : Reader ε α) [] (.error e) := fun _ => rfl

theorem reads_take (e : ε) (bs : List UInt8) : Reads (take e bs.length) bs (.ok bs) := by
  intro w
  simp [take, Except.map, Window.push]

theorem reads_number (e : ε) {w n : Nat} (bound : n < 256 ^ w) :
    Reads (ofLE <$> take e w) (toLE w n) (.ok n) := by
  have read := reads_map (f := ofLE) (reads_take e (toLE w n))
  rwa [length_toLE, Except.map, ofLE_toLE bound] at read

theorem reads_bind_pure {p : Reader ε α} {f : α → β} {bs : List UInt8} {x : Except ε α}
    (read : Reads p bs x) :
    Reads (p >>= fun a => pure (f a)) bs (x >>= fun a => pure (f a)) := by
  rw [bind_pure_comp, bind_pure_comp]
  exact reads_map read


theorem reads_bind_last {p : Reader ε α} {f : α → Reader ε β} {bs : List UInt8} {a : α}
    {r : Except ε β} (first : Reads p bs (.ok a)) (last : Reads (f a) [] r) :
    Reads (p >>= f) bs r := by
  have read := reads_bind first last
  rwa [List.append_nil] at read

theorem reads_pointer {f : List UInt8 → Reader ε β} {bs : List UInt8} {r : Except ε β}
    (next : ∀ rest, Reads (f (bs ++ rest)) bs r) : Reads (pointer >>= f) bs r :=
  fun w => next w.mem w

theorem reads_peek {e : ε} {f : List UInt8 → Reader ε β} {n : Nat} {bs cs : List UInt8}
    {r : Except ε β} (width : bs.length = n) (next : Reads (f bs) (bs ++ cs) r) :
    Reads (peek e n >>= f) (bs ++ cs) r := by
  intro w
  have ahead : peek e n (w.push (bs ++ cs)) = .ok (bs, w.push (bs ++ cs)) := by
    simp [peek, Window.push, ← width, Nat.add_assoc]
  show (peek e n (w.push (bs ++ cs))).bind _ = _
  rw [ahead]
  exact next w

theorem Reads.whole {p : Reader ε α} {bs : List UInt8} {r : Except ε α} (read : Reads p bs r) :
    p (.whole bs) = r.map fun a => (a, .whole []) := by
  have start : Window.whole bs = (Window.whole []).push bs := by
    rw [← Window.whole_append, List.append_nil]
  rw [start]
  exact read _

/-- Reads a part of n bytes by itself and goes on after it. -/
def within (e : ε) (n : Nat) (p : Reader ε α) : Reader ε α := fun w =>
  if h : n ≤ w.size then
    match p ⟨w.mem, n, by have := w.inside; omega⟩ with
    | .error e => .error e
    | .ok (a, _) => (take e n w).map fun (_, w) => (a, w)
  else .error e

theorem reads_within (e : ε) {p : Reader ε α} {bs : List UInt8} {r : Except ε α}
    (read : Reads p bs r) : Reads (within e bs.length p) bs r := by
  intro w
  have enough : bs.length ≤ (w.push bs).size := by simp [Window.push]
  have part : (⟨(w.push bs).mem, bs.length, by simp [Window.push]⟩ : Window) =
      Window.push bs ⟨w.mem, 0, by simp⟩ := by
    ext <;> simp [Window.push]
  rw [within, dif_pos enough, part, read, reads_take e bs w]
  cases r <;> rfl

/- Packed records. -/

/-- Fields one after another, each a width and a number. -/
def packed (fields : List (Nat × Nat)) : List UInt8 := fields.flatMap fun f => toLE f.1 f.2

/-- The number of w bytes at an offset. -/
def field (w offset : Nat) (bs : List UInt8) : Nat := ofLE ((bs.drop offset).take w)

theorem length_packed (fields : List (Nat × Nat)) :
    (packed fields).length = (fields.map (·.1)).sum := by
  simp [packed, List.length_flatMap]

theorem field_packed (before after : List (Nat × Nat)) {w n : Nat} (bound : n < 256 ^ w) :
    field w (before.map (·.1)).sum (packed (before ++ (w, n) :: after)) = n := by
  have split : packed (before ++ (w, n) :: after) =
      packed before ++ (toLE w n ++ packed after) := by
    simp [packed]
  rw [field, split, ← length_packed, List.drop_left]
  have width := length_toLE w n
  rw [List.take_append_of_le_length width.ge, List.take_of_length_le width.le, ofLE_toLE bound]

theorem drop_records {record : α → List UInt8} {k : Nat} {xs : List α}
    (width : ∀ x ∈ xs, (record x).length = k) (i : Nat) :
    (xs.flatMap record).drop (k * i) = (xs.drop i).flatMap record := by
  induction i generalizing xs with
  | zero => simp
  | succ i ih =>
    cases xs with
    | nil => simp
    | cons x xs =>
      have first := width x (by simp)
      rw [List.flatMap_cons, Nat.mul_succ, Nat.add_comm, ← List.drop_drop, ← first,
        List.drop_left, first, ih fun y hy => width y (by simp [hy]), List.drop_succ_cons]

theorem field_records {record : α → List UInt8} {k : Nat} {xs : List α}
    (width : ∀ x ∈ xs, (record x).length = k) {i w : Nat} (offset : Nat) (index : i < xs.length)
    (inside : offset + w ≤ k) :
    field w (k * i + offset) (xs.flatMap record) = field w offset (record xs[i]) := by
  have first := width xs[i] (List.getElem_mem index)
  rw [field, field, ← List.drop_drop, drop_records width, List.drop_eq_getElem_cons index,
    List.flatMap_cons, List.drop_append_of_le_length (by omega), List.take_append_of_le_length]
  rw [List.length_drop]
  omega

end Bytes
