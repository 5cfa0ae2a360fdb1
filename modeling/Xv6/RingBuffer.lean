import Mathlib.Data.List.Infix
import Mathlib.Data.Nat.ModEq
import Mathlib.Logic.Function.Basic

set_option autoImplicit false

/-! A buffer of `c` places with a counter of the elements taken out and one of the elements put in.
The counters run modulo `m`, a multiple of `c`, so that a counter modulo `c` is the place of the
next element also after it has wrapped. -/
namespace Xv6.RingBuffer

variable {α : Type} {c m r w : ℕ} [NeZero c] {data : Fin c → α} {put got : List α}

structure Ring (m : ℕ) (data : Fin c → α) (r w : ℕ) (put got : List α) : Prop where
  read : r = got.length % m
  write : w = put.length % m
  order : got <+: put
  room : put.length ≤ got.length + c
  /-- What has not been taken out is in the buffer. -/
  data : ∀ k (h : k < put.length), got.length ≤ k → data (Fin.ofNat c k) = put[k]

theorem Ring.empty (m : ℕ) (data : Fin c → α) : Ring m data 0 0 [] [] where
  read := (Nat.zero_mod m).symm
  write := (Nat.zero_mod m).symm
  order := List.prefix_refl []
  room := Nat.zero_le _
  data := fun _ h => absurd h (Nat.not_lt_zero _)

theorem eq_of_mod_eq {a b : ℕ} (hle : a ≤ b) (hlt : b < a + m) (h : a % m = b % m) : a = b := by
  have hdvd : m ∣ b - a := (Nat.modEq_iff_dvd' hle).1 h
  have hzero : b - a = 0 := Nat.eq_zero_of_dvd_of_lt hdvd (by omega)
  omega

theorem place_mod (hd : c ∣ m) (k : ℕ) : Fin.ofNat c (k % m) = Fin.ofNat c k := by
  apply Fin.ext
  change k % m % c = k % c
  exact Nat.mod_mod_of_dvd k hd

theorem place_ne {j k : ℕ} (hlt : j < k) (hc : k < j + c) : Fin.ofNat c j ≠ Fin.ofNat c k := by
  intro heq
  have hmod : j % c = k % c := congrArg Fin.val heq
  exact absurd (eq_of_mod_eq hlt.le hc hmod) hlt.ne

variable (h : Ring m data r w put got)
include h

theorem Ring.length_le : got.length ≤ put.length := h.order.length_le

theorem Ring.empty_iff (hc : c < m) : r = w ↔ got = put := by
  rw [h.read, h.write]
  constructor
  · intro heq
    have hlen := eq_of_mod_eq h.length_le (Nat.lt_of_le_of_lt h.room (by omega)) heq
    exact h.order.eq_of_length hlen
  · intro heq
    rw [heq]

theorem Ring.full_iff (hc : c < m) :
    w = (r + c) % m ↔ put.length = got.length + c := by
  have hsum : (r + c) % m = (got.length + c) % m := by rw [h.read, Nat.mod_add_mod]
  rw [hsum, h.write]
  constructor
  · intro heq
    exact eq_of_mod_eq h.room (by have := h.length_le; omega) heq
  · intro heq
    rw [heq]

theorem Ring.size (hc : c < m) :
    (m - r + w) % m = put.length - got.length := by
  have hr : r < m := by
    rw [h.read]
    exact Nat.mod_lt _ (by omega)
  have hlt : put.length - got.length < m := by
    have := h.room
    omega
  have hcong : (m - r + w + r) % m = (put.length - got.length + r) % m := by
    have hleft : m - r + w + r = w + m := by omega
    have hright : (put.length - got.length + r) % m = put.length % m := by
      rw [h.read, Nat.add_mod_mod, Nat.sub_add_cancel h.length_le]
    rw [hleft, Nat.add_mod_right, hright, h.write, Nat.mod_mod]
  have := Nat.ModEq.add_right_cancel' r hcong
  rw [this, Nat.mod_eq_of_lt hlt]

theorem Ring.push (hd : c ∣ m)
    (hroom : put.length < got.length + c) (a : α) :
    Ring m (Function.update data (Fin.ofNat c w) a) r ((w + 1) % m) (put ++ [a]) got where
  read := h.read
  write := by rw [h.write, Nat.mod_add_mod, List.length_append, List.length_singleton]
  order := h.order.trans (List.prefix_append put [a])
  room := by
    rw [List.length_append, List.length_singleton]
    exact hroom
  data := by
    intro k hk hge
    rw [List.length_append, List.length_singleton] at hk
    rw [h.write, place_mod hd]
    by_cases hlast : k = put.length
    · subst hlast
      rw [Function.update_self, List.getElem_append_right (Nat.le_refl _)]
      simp
    · have hlt : k < put.length := by omega
      rw [Function.update_of_ne (place_ne hlt (by omega)), List.getElem_append_left hlt]
      exact h.data k hlt hge

theorem Ring.scribble (hd : c ∣ m)
    (hroom : put.length < got.length + c) (a : α) :
    Ring m (Function.update data (Fin.ofNat c w) a) r w put got where
  read := h.read
  write := h.write
  order := h.order
  room := h.room
  data := by
    intro k hk hge
    rw [h.write, place_mod hd, Function.update_of_ne (place_ne hk (by omega))]
    exact h.data k hk hge

theorem Ring.publish (hd : c ∣ m)
    (hroom : put.length < got.length + c) {a : α} (ha : data (Fin.ofNat c w) = a) :
    Ring m data r ((w + 1) % m) (put ++ [a]) got := by
  have hpush := h.push hd hroom a
  rwa [← ha, Function.update_eq_self, ha] at hpush

theorem Ring.pop (hd : c ∣ m) (hne : got ≠ put) :
    Ring m data ((r + 1) % m) w put (got ++ [data (Fin.ofNat c r)]) := by
  have hlt : got.length < put.length := by
    apply Nat.lt_of_le_of_ne h.length_le
    intro heq
    exact hne (h.order.eq_of_length heq)
  have hnext : data (Fin.ofNat c r) = put[got.length] := by
    rw [h.read, place_mod hd]
    exact h.data got.length hlt (Nat.le_refl _)
  constructor
  · rw [h.read, Nat.mod_add_mod, List.length_append, List.length_singleton]
  · exact h.write
  · rw [hnext]
    exact List.concat_get_prefix h.order hlt
  · rw [List.length_append, List.length_singleton]
    have := h.room
    omega
  · intro k hk hge
    rw [List.length_append, List.length_singleton] at hge
    exact h.data k hk (by omega)

end Xv6.RingBuffer
