/-
The interest set of an epoll instance.

An interest set says of every descriptor whether it is watched and for which
events.  `ctl` is `epoll_ctl`: it fails (`none`) as documented when `ADD` meets
a descriptor that is watched, or `MOD` or `DEL` one that is not, and whenever
the caller says so (`fault`), which stands for all errors that do not come from
the set itself.  A call that fails changes nothing.

The two directions of a descriptor are the bits `IN` and `OUT` of a mask;
`readiness m` is what a mask says about them.
-/
import Mathlib.Tactic

namespace Epoll

/-- A `uint32_t` of event bits. -/
abbrev Mask := BitVec 32

def IN : Mask := 0x001
def OUT : Mask := 0x004
def ERR : Mask := 0x008
def HUP : Mask := 0x010
def ET : Mask := 0x80000000

/-- The directions of a descriptor. -/
inductive Dir where
  | read
  | write
  deriving DecidableEq

/-- There is another direction. -/
theorem Dir.exists_ne (d : Dir) : ∃ e : Dir, e ≠ d := by
  cases d
  · exact ⟨.write, Dir.noConfusion⟩
  · exact ⟨.read, Dir.noConfusion⟩

/-- The bit of a direction. -/
def Dir.mask : Dir → Mask
  | .read => IN
  | .write => OUT

/-- The bits of a mask that belong to a direction. -/
def readiness (m : Mask) : Mask := m &&& (IN ||| OUT)

/-- The descriptors watched, each with its mask. -/
abbrev InterestSet := ℤ → Option Mask

inductive Op where
  | add
  | mod
  | del

/-- `epoll_ctl`. -/
def ctl (set : InterestSet) (op : Op) (fd : ℤ) (events : Mask) (fault : Bool) :
    Option InterestSet :=
  if fault then none
  else match op, set fd with
    | .add, none => some (Function.update set fd (some events))
    | .mod, some _ => some (Function.update set fd (some events))
    | .del, some _ => some (Function.update set fd none)
    | _, _ => none

variable {set set' : InterestSet} {fd : ℤ} {events : Mask}

theorem ctl_add (h : set fd = none) :
    ctl set .add fd events false = some (Function.update set fd (some events)) := by
  simp [ctl, h]

/-- `EEXIST`. -/
theorem ctl_add_of_isSome {fault : Bool} (h : (set fd).isSome) :
    ctl set .add fd events fault = none := by
  obtain ⟨m, hm⟩ := Option.isSome_iff_exists.mp h
  cases fault <;> simp [ctl, hm]

theorem ctl_mod (h : (set fd).isSome) :
    ctl set .mod fd events false = some (Function.update set fd (some events)) := by
  obtain ⟨m, hm⟩ := Option.isSome_iff_exists.mp h
  simp [ctl, hm]

theorem ctl_del (h : (set fd).isSome) :
    ctl set .del fd events false = some (Function.update set fd none) := by
  obtain ⟨m, hm⟩ := Option.isSome_iff_exists.mp h
  simp [ctl, hm]

/-- A call is about one descriptor. -/
theorem ctl_of_ne {op : Op} {fault : Bool} (h : ctl set op fd events fault = some set')
    {fd' : ℤ} (hfd : fd' ≠ fd) : set' fd' = set fd' := by
  unfold ctl at h
  split_ifs at h
  split at h
  case h_4 => exact absurd h (by simp)
  all_goals
    rw [← Option.some_inj.mp h]
    exact Function.update_of_ne hfd _ _

theorem ctl_getD_of_ne {op : Op} {fault : Bool} {fd' : ℤ} (hfd : fd' ≠ fd) :
    ((ctl set op fd events fault).getD set) fd' = set fd' := by
  cases h : ctl set op fd events fault with
  | none => rfl
  | some set' => exact ctl_of_ne h hfd

/-! ### Masks -/

@[simp] theorem readiness_mask (d : Dir) : readiness d.mask = d.mask := by
  cases d <;> decide

@[simp] theorem readiness_ET : readiness ET = 0 := by decide

@[simp] theorem readiness_zero : readiness 0 = 0 := by decide

theorem readiness_or (m m' : Mask) : readiness (m ||| m') = readiness m ||| readiness m' := by
  rw [readiness, readiness, readiness, BitVec.and_comm, BitVec.and_or_distrib_left,
    BitVec.and_comm, BitVec.and_comm _ m']

/-- `ET` names no direction. -/
@[simp] theorem readiness_ET_or (m : Mask) : readiness (ET ||| m) = readiness m := by
  rw [readiness_or, readiness_ET]
  exact BitVec.zero_or

theorem readiness_and (m m' : Mask) : readiness (m &&& m') = readiness m &&& m' := by
  rw [readiness, readiness, BitVec.and_assoc, BitVec.and_comm m', BitVec.and_assoc]

/-- Taking out one direction leaves the bit of the other. -/
theorem and_not_mask_of_ne (m : Mask) {d e : Dir} (h : e ≠ d) :
    m &&& ~~~d.mask &&& e.mask = m &&& e.mask := by
  rw [BitVec.and_assoc]
  congr 1
  cases d <;> cases e <;> first | decide | exact absurd rfl h

/-- Taking out a direction clears its bit. -/
theorem and_not_mask_self (m : Mask) (d : Dir) : m &&& ~~~d.mask &&& d.mask = 0 := by
  have hd : ~~~d.mask &&& d.mask = 0 := by
    cases d <;> decide
  rw [BitVec.and_assoc, hd]
  exact BitVec.and_zero

/-- Adding a direction sets its bit. -/
theorem or_mask_and_self (m : Mask) (d : Dir) : (m ||| d.mask) &&& d.mask ≠ 0 := by
  intro h
  rw [BitVec.and_comm, BitVec.and_or_distrib_left, BitVec.and_self] at h
  have := (BitVec.or_eq_zero_iff.mp h).2
  cases d <;> exact absurd this (by decide)

theorem or_mask_and_of_ne (m : Mask) {d e : Dir} (h : e ≠ d) :
    (m ||| d.mask) &&& e.mask = m &&& e.mask := by
  have hde : d.mask &&& e.mask = 0 := by
    cases d <;> cases e <;> first | decide | exact absurd rfl h
  rw [BitVec.and_comm, BitVec.and_or_distrib_left, BitVec.and_comm, BitVec.and_comm _ d.mask, hde]
  exact BitVec.or_zero

/-- A mask without the bit of any direction. -/
theorem readiness_eq_zero {m : Mask} (h : ∀ d : Dir, m &&& d.mask = 0) : readiness m = 0 := by
  rw [readiness, BitVec.and_or_distrib_left, show m &&& IN = 0 from h .read,
    show m &&& OUT = 0 from h .write]
  exact BitVec.or_zero

/-- Taking out bits that are not there. -/
theorem and_not_of_and_eq_zero {m k : Mask} (h : m &&& k = 0) : m &&& ~~~k = m := by
  have hsplit : m &&& k ||| m &&& ~~~k = m := by
    rw [← BitVec.and_or_distrib_left, BitVec.or_not_self]
    exact BitVec.and_allOnes
  rw [h] at hsplit
  exact BitVec.zero_or.symm.trans hsplit

/-- A mask of directions only is one of four. -/
theorem readiness_cases {m : Mask} (h : readiness m = m) :
    m = 0 ∨ m = IN ∨ m = OUT ∨ m = IN ||| OUT := by
  have hle : m.toNat ≤ 5 := by
    rw [← h, readiness, BitVec.toNat_and]
    exact Nat.and_le_right
  have hm : m = BitVec.ofNat 32 m.toNat := by simp
  generalize m.toNat = n at hle hm
  subst hm
  interval_cases n <;> revert h <;> decide

/-- The bit of a direction is there or not. -/
theorem and_mask_cases (m : Mask) (d : Dir) : m &&& d.mask = 0 ∨ m &&& d.mask = d.mask := by
  have hself : m &&& d.mask &&& d.mask = m &&& d.mask := by rw [BitVec.and_assoc, BitVec.and_self]
  have hdirs : readiness (m &&& d.mask) = m &&& d.mask := by
    rw [readiness, BitVec.and_assoc]
    congr 1
    cases d <;> decide
  rcases readiness_cases hdirs with h | h | h | h <;> rw [h] at hself ⊢ <;> revert hself <;>
    cases d <;> decide

end Epoll
