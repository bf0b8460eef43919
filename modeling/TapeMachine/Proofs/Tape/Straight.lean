import TapeMachine.Program
import TapeMachine.Tape
import TapeMachine.Text

/-! Straight texts.

A text without brackets, `.` and `,` moves the head and adds to cells, and where it
does so is no matter of what is in the cells. So its effect can be told from an endless
line of addresses, without a tape: on the circle all addresses that are congruent modulo
its size are one cell, and this cell gets what the text adds at any of them (`added`). -/
namespace TapeMachine

/-- A character that moves the head, changes a cell, or is a comment. -/
def Straight (c : Char) : Prop := c ∉ ['.', ',', '[', ']']

instance (c : Char) : Decidable (Straight c) := inferInstanceAs (Decidable (¬ _))

/-- How far a character moves the head. -/
def stride (c : Char) : Int := if c = '>' then 1 else if c = '<' then -1 else 0

/-- What a character adds to the cell under the head. -/
def weight (c : Char) : Int := if c = '+' then 1 else if c = '-' then -1 else 0

/-- How far a text moves the head in all. -/
def drift (w : Text) : Int := (w.count '>' : Int) - w.count '<'

/-- What a text that starts at address `a` of an endless line adds at the addresses
congruent to `j` modulo `n`. -/
def added (n j : Nat) : Int → Text → Int
  | _, [] => 0
  | a, c :: rest => (if a % n = j then weight c else 0) + added n j (a + stride c) rest

@[simp] theorem drift_nil : drift [] = 0 := rfl

@[simp] theorem drift_cons (c : Char) (w : Text) : drift (c :: w) = stride c + drift w := by
  rw [drift, drift, stride, List.count_cons, List.count_cons]
  by_cases hr : c = '>'
  · subst hr
    simp
    omega
  · by_cases hl : c = '<'
    · subst hl
      simp
      omega
    · simp [hr, hl]

namespace Tape

variable {t t' t'' : Tape} {a b : Int} {d e : Nat → Int} {c : Char} {w : Text}

/-- The number in a cell. -/
def value (t : Tape) (j : Nat) : Nat := (t.cells.getD j 0).toNat

theorem value_head (t : Tape) : t.value t.head = t.read.toNat := by
  have hlt := t.head_lt
  simp [value, read, hlt]

theorem value_write (t : Tape) (v : UInt8) (j : Nat) :
    (t.write v).value j = if j = t.head then v.toNat else t.value j := by
  simp only [value, write, Array.getD_eq_getD_getElem?, Array.getElem?_set]
  by_cases h : t.head = j
  · simp [h]
  · simp [h, Ne.symm h]

/-- What a straight character does to a tape. -/
def tread (t : Tape) (c : Char) : Tape :=
  match Command.ofChar c with
  | .right => t.right
  | .left => t.left
  | .increment => t.increment
  | .decrement => t.decrement
  | _ => t

/-- What a straight text does to a tape. -/
def traverse (t : Tape) (w : Text) : Tape := w.foldl tread t

/-- One tape is another with so much added to each cell, modulo 256, and the head at an
address of the endless line. -/
structure Adds (t : Tape) (d : Nat → Int) (a : Int) (t' : Tape) : Prop where
  size : t'.size = t.size
  head : (t'.head : Int) = a % t.size
  value : ∀ j < t.size, (t'.value j : Int) = (t.value j + d j) % 256

theorem value_lt (t : Tape) (j : Nat) : t.value j < 256 := UInt8.toNat_lt _

theorem head_emod (t : Tape) : (t.head : Int) % t.size = t.head := by
  have hlt : t.head < t.size := t.head_lt
  exact Int.emod_eq_of_lt (by omega) (by omega)

theorem Adds.refl (t : Tape) (a : Int) (ha : a % t.size = t.head) :
    t.Adds (fun _ => 0) a t where
  size := rfl
  head := ha.symm
  value j _ := by
    have hlt := t.value_lt j
    omega

theorem Adds.trans (h : t.Adds d a t') (h' : t'.Adds e b t'') :
    t.Adds (fun j => d j + e j) b t'' where
  size := h'.size.trans h.size
  head := by rw [h'.head, h.size]
  value j hj := by
    rw [h'.value j (h.size ▸ hj), h.value j hj]
    omega

theorem Adds.congr (h : t.Adds d a t') (hde : ∀ j < t.size, d j = e j)
    (hab : a % t.size = b % t.size) : t.Adds e b t' where
  size := h.size
  head := h.head.trans hab
  value j hj := by rw [h.value j hj, hde j hj]

theorem size_tread (t : Tape) (c : Char) : (t.tread c).size = t.size := by
  rw [tread]
  split
  · exact size_right t
  · exact size_left t
  · exact size_write t _
  · exact size_write t _
  · rfl

theorem head_right (t : Tape) (ha : a % t.size = t.head) :
    (t.right.head : Int) = (a + 1) % t.size := by
  show ((t.head + 1) % t.size : Nat) = (a + 1) % (t.size : Int)
  push_cast
  rw [← ha, Int.emod_add_emod]

theorem head_left (t : Tape) (ha : a % t.size = t.head) :
    (t.left.head : Int) = (a - 1) % t.size := by
  have hpos := t.size_pos
  show ((t.head + (t.size - 1)) % t.size : Nat) = (a - 1) % (t.size : Int)
  rw [Int.natCast_emod, Int.natCast_add, Int.natCast_sub hpos, ← ha, Int.emod_add_emod]
  have hround : a + ((t.size : Int) - (1 : Nat)) = a - 1 + t.size := by omega
  rw [hround, Int.add_emod_right]

/-- Adding a constant to the cell under the head. -/
theorem adds_write (t : Tape) {v : UInt8} {x : Int} (ha : a % t.size = t.head)
    (hv : (v.toNat : Int) = (t.read.toNat + x) % 256) :
    t.Adds (fun j => if a % t.size = j then x else 0) a (t.write v) where
  size := size_write t v
  head := ha.symm
  value j _ := by
    have hlt := t.value_lt j
    rw [value_write, ha]
    by_cases hjh : j = t.head
    · rw [if_pos hjh, if_pos (congrArg Nat.cast hjh.symm), hv, hjh, value_head]
    · rw [if_neg hjh, if_neg fun h => hjh (Int.natCast_inj.mp h).symm]
      omega

/-- Of the straight characters four are instructions. -/
theorem tread_comment (hc : Straight c) (hr : c ≠ '>') (hl : c ≠ '<') (hi : c ≠ '+')
    (hd : c ≠ '-') : t.tread c = t := by
  have hcomment : Command.ofChar c = .comment := by
    unfold Command.ofChar
    split <;> first | rfl | contradiction
  rw [tread, hcomment]

/-- One character. -/
theorem adds_tread (hc : Straight c) (ha : a % t.size = t.head) :
    t.Adds (fun j => if a % t.size = j then weight c else 0) (a + stride c) (t.tread c) := by
  have hstay : t.Adds (fun _ => 0) a t := .refl t a ha
  by_cases hr : c = '>'
  · subst hr
    refine ⟨size_right t, head_right t ha, fun j hj => ?_⟩
    rw [show weight '>' = 0 from rfl, ite_self]
    exact hstay.value j hj
  by_cases hl : c = '<'
  · subst hl
    refine ⟨size_left t, head_left t ha, fun j hj => ?_⟩
    rw [show weight '<' = 0 from rfl, ite_self]
    exact hstay.value j hj
  by_cases hi : c = '+'
  · subst hi
    refine (adds_write t ha (v := t.read + 1) (x := 1) ?_).congr (fun _ _ => rfl) ?_
    · rw [UInt8.toNat_add]
      rfl
    · rw [show stride '+' = 0 from rfl, Int.add_zero]
  by_cases hd : c = '-'
  · subst hd
    refine (adds_write t ha (v := t.read - 1) (x := -1) ?_).congr (fun _ _ => rfl) ?_
    · rw [UInt8.toNat_sub]
      show (((2 ^ 8 - 1 + t.read.toNat) % 2 ^ 8 : Nat) : Int) = _
      omega
    · rw [show stride '-' = 0 from rfl, Int.add_zero]
  · have hweight : weight c = 0 := by rw [weight, if_neg hi, if_neg hd]
    have hstride : stride c = 0 := by rw [stride, if_neg hr, if_neg hl]
    rw [tread_comment hc hr hl hi hd, hweight, hstride, Int.add_zero]
    exact hstay.congr (fun j _ => (ite_self 0).symm) rfl

/-- A text adds to every cell what it adds at its addresses. -/
theorem adds_traverse (hw : ∀ c ∈ w, Straight c) (ha : a % t.size = t.head) :
    t.Adds (fun j => added t.size j a w) (a + drift w) (t.traverse w) := by
  induction w generalizing t a with
  | nil => simpa [added, traverse] using Adds.refl t a ha
  | cons c rest ih =>
    have hfirst := adds_tread (hw c (List.mem_cons_self ..)) ha
    have hsize := size_tread t c
    have hrest := ih (t := t.tread c) (a := a + stride c)
      (fun x hx => hw x (List.mem_cons_of_mem c hx)) (by rw [hfirst.head, hsize])
    refine (hfirst.trans hrest).congr (fun j _ => ?_) ?_
    · rw [added, hsize]
    · rw [drift_cons, Int.add_assoc]

/-- A text that comes back to the cell it started from, on the circle. -/
theorem adds_traverse_head (hw : ∀ c ∈ w, Straight c) (hd : (t.size : Int) ∣ drift w) :
    t.Adds (fun j => added t.size j t.head w) t.head (t.traverse w) := by
  refine (adds_traverse hw t.head_emod).congr (fun _ _ => rfl) ?_
  obtain ⟨x, hx⟩ := hd
  rw [hx, Int.add_mul_emod_self_left]

/-! ### Rounds -/

/-- A text that is gone through so many times. -/
def rounds (t : Tape) (w : Text) : Nat → Tape
  | 0 => t
  | k + 1 => (t.rounds w k).traverse w

theorem adds_rounds (hw : ∀ c ∈ w, Straight c) (hd : (t.size : Int) ∣ drift w) (k : Nat) :
    t.Adds (fun j => k * added t.size j t.head w) t.head (t.rounds w k) := by
  induction k with
  | zero => exact (Adds.refl t _ t.head_emod).congr (fun j _ => by simp) rfl
  | succ k ih =>
    have hhead : (t.rounds w k).head = t.head := Int.natCast_inj.mp (ih.head.trans t.head_emod)
    have hround := adds_traverse_head (t := t.rounds w k) hw (by rwa [ih.size])
    rw [ih.size, hhead] at hround
    refine (ih.trans hround).congr (fun j _ => ?_) rfl
    push_cast
    rw [Int.add_mul, Int.one_mul]

end Tape
end TapeMachine
