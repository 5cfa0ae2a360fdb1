import Mathlib.Algebra.Order.Ring.Nat
import Mathlib.Data.Nat.Bitwise

set_option autoImplicit false

namespace Xv6.Paging

variable {pa flags : ℕ}

def PGSIZE : ℕ := 4096

def u64 (n : ℕ) : ℕ := n % 2 ^ 64

def u32 (n : ℕ) : ℕ := n % 2 ^ 32

/-- Conversion to `int` and back to 64 bits. -/
def s32 (n : ℕ) : ℕ := if u32 n < 2 ^ 31 then u32 n else u32 n + (2 ^ 64 - 2 ^ 32)

def PGROUNDUP (sz : ℕ) : ℕ := u64 (sz + (PGSIZE - 1)) / PGSIZE * PGSIZE

def PGROUNDDOWN (a : ℕ) : ℕ := a / PGSIZE * PGSIZE

def PTE_V : ℕ := 1
def PTE_R : ℕ := 2
def PTE_W : ℕ := 4
def PTE_X : ℕ := 8
def PTE_U : ℕ := 16

def PA2PTE (pa : ℕ) : ℕ := u64 ((pa >>> 12) <<< 10)

def PTE2PA (pte : ℕ) : ℕ := u64 ((pte >>> 10) <<< 12)

def PTE_FLAGS (pte : ℕ) : ℕ := pte &&& 0x3FF

def PX (level va : ℕ) : ℕ := (va >>> (12 + 9 * level)) &&& 0x1FF

def KERNBASE : ℕ := 0x80000000
def PHYSTOP : ℕ := KERNBASE + 128 * 1024 * 1024

def MAXVA : ℕ := 2 ^ (9 + 9 + 9 + 12 - 1)
def TRAMPOLINE : ℕ := MAXVA - PGSIZE
def TRAPFRAME : ℕ := TRAMPOLINE - PGSIZE

theorem and_of_lt {pte m : ℕ} (h : m < 1024) : pte &&& m = pte % 1024 &&& m := by
  have hm : 0x3FF &&& m = m := by
    rw [Nat.and_comm, show (0x3FF : ℕ) = 2 ^ 10 - 1 from rfl, Nat.and_two_pow_sub_one_eq_mod]
    exact Nat.mod_eq_of_lt h
  rw [show (1024 : ℕ) = 2 ^ 10 from rfl, ← Nat.and_two_pow_sub_one_eq_mod, Nat.and_assoc, hm]

theorem PTE_FLAGS_eq (pte : ℕ) : PTE_FLAGS pte = pte % 1024 :=
  Nat.and_two_pow_sub_one_eq_mod pte 10

theorem PX_eq (level va : ℕ) : PX level va = va / PGSIZE / 512 ^ level % 512 := by
  unfold PX PGSIZE
  rw [show (0x1FF : ℕ) = 2 ^ 9 - 1 from rfl, Nat.and_two_pow_sub_one_eq_mod,
    Nat.shiftRight_eq_div_pow,
    pow_add, pow_mul, Nat.div_div_eq_div_mul]
  rfl

theorem PX_lt (level va : ℕ) : PX level va < 512 := by
  rw [PX_eq]
  exact Nat.mod_lt _ (by decide)

theorem PA2PTE_eq (h : pa < PHYSTOP) : PA2PTE pa = pa / 4096 * 1024 := by
  unfold PA2PTE u64
  rw [Nat.shiftRight_eq_div_pow, Nat.shiftLeft_eq]
  unfold PHYSTOP KERNBASE at h
  omega

theorem PA2PTE_or (h : pa < PHYSTOP) (hf : flags < 1024) :
    PA2PTE pa ||| flags = pa / 4096 * 1024 + flags := by
  rw [PA2PTE_eq h, Nat.mul_comm, show (1024 : ℕ) = 2 ^ 10 from rfl]
  exact (Nat.two_pow_add_eq_or_of_lt hf (pa / 4096)).symm

theorem PTE2PA_or (h : pa < PHYSTOP) (ha : pa % PGSIZE = 0) (hf : flags < 1024) :
    PTE2PA (PA2PTE pa ||| flags) = pa := by
  rw [PA2PTE_or h hf]
  unfold PTE2PA u64
  rw [Nat.shiftRight_eq_div_pow, Nat.shiftLeft_eq]
  unfold PHYSTOP KERNBASE at h
  unfold PGSIZE at ha
  omega

theorem PTE_FLAGS_or (h : pa < PHYSTOP) (hf : flags < 1024) :
    PTE_FLAGS (PA2PTE pa ||| flags) = flags := by
  rw [PA2PTE_or h hf, PTE_FLAGS_eq]
  omega

theorem or_and_of_lt {m : ℕ} (h : pa < PHYSTOP) (hf : flags < 1024) (hm : m < 1024) :
    (PA2PTE pa ||| flags) &&& m = flags &&& m := by
  have hflags : (pa / 4096 * 1024 + flags) % 1024 = flags := by omega
  rw [and_of_lt hm, PA2PTE_or h hf, hflags]

theorem u64_next {v : ℕ} (hv : v < 2 ^ 26) : u64 (v * PGSIZE + PGSIZE) = (v + 1) * PGSIZE := by
  unfold u64 PGSIZE
  omega

/-- The entry for the next level's table, or none. -/
def link (page : ℕ) : ℕ := if page = 0 then 0 else PA2PTE page ||| PTE_V

structure ValidPte (pte : ℕ) : Prop where
  lt : pte < 2 ^ 64
  valid : pte &&& PTE_V ≠ 0

theorem ValidPte.ne_zero {pte : ℕ} (h : ValidPte pte) : pte ≠ 0 := by
  intro hzero
  apply h.valid
  rw [hzero, Nat.zero_and]

/-- A valid entry that maps a page: it has more flags than the valid bit. -/
structure LeafPte (pte : ℕ) : Prop extends ValidPte pte where
  flags : PTE_FLAGS pte ≠ PTE_V

end Xv6.Paging
