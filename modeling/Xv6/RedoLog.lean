import Mathlib.Data.List.Nodup
import Mathlib.Logic.Function.Basic

set_option autoImplicit false

namespace Xv6.RedoLog

variable {K V : Type} [DecidableEq K]
variable {hdr : List K} {slot : ℕ → K} {d : K → V}

def replay (hdr : List K) (slot : ℕ → K) (d : K → V) : K → V :=
  fun b => if b ∈ hdr then d (slot (hdr.idxOf b)) else d b

/-- The store with the contents `c` at the addresses of `hdr`. -/
def override (hdr : List K) (c d : K → V) : K → V := fun b => if b ∈ hdr then c b else d b

@[simp] theorem replay_nil (slot : ℕ → K) (d : K → V) : replay [] slot d = d := by
  funext b
  simp [replay]

theorem replay_of_notMem {b : K} (h : b ∉ hdr) :
    replay hdr slot d b = d b := if_neg h

theorem replay_of_mem {b : K} (h : b ∈ hdr) :
    replay hdr slot d b = d (slot (hdr.idxOf b)) := if_pos h

theorem replay_filled {c : K → V} (filled : ∀ j (h : j < hdr.length), d (slot j) = c hdr[j]) :
    replay hdr slot d = override hdr c d := by
  funext b
  by_cases hb : b ∈ hdr
  · have hj := List.idxOf_lt_length_of_mem hb
    rw [replay_of_mem hb, filled _ hj, List.getElem_idxOf hj, override, if_pos hb]
  · rw [replay_of_notMem hb, override, if_neg hb]

theorem replay_install {j : ℕ} (h : j < hdr.length) (apart : ∀ i < hdr.length, slot i ≠ hdr[j]) :
    replay hdr slot (Function.update d hdr[j] (d (slot j))) = replay hdr slot d := by
  funext b
  by_cases hb : b ∈ hdr
  · rw [replay_of_mem hb, replay_of_mem hb,
      Function.update_of_ne (apart _ (List.idxOf_lt_length_of_mem hb))]
  · have hne : b ≠ hdr[j] := fun he => hb (he ▸ List.getElem_mem h)
    rw [replay_of_notMem hb, replay_of_notMem hb, Function.update_of_ne hne]

theorem replay_installed (installed : ∀ j (h : j < hdr.length), d hdr[j] = d (slot j)) :
    replay hdr slot d = d := by
  funext b
  by_cases hb : b ∈ hdr
  · have hj := List.idxOf_lt_length_of_mem hb
    rw [replay_of_mem hb, ← installed _ hj, List.getElem_idxOf hj]
  · exact replay_of_notMem hb

end Xv6.RedoLog
