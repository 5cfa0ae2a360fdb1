import Xv6.ExecCode

set_option autoImplicit false

namespace Xv6.ExecHeaders
open Resumption Xv6.Sequential ByteFields Paging PageOwners VmCode ExecCode

variable {K : Image} {ip : File} {m m' : Memory} {off n pagetable sz : ℕ}

theorem u32_lt (n : ℕ) : u32 n < 2 ^ 32 := Nat.mod_lt n (Nat.two_pow_pos 32)

theorem readi_full (hn : n < 2 ^ 32) (hpos : 0 < n) (h : (readi ip off n).length = n) :
    off + n < 2 ^ 32 ∧ off + n ≤ ip.1.size ∧
      ∀ j < n, (readi ip off n).getD j 0 = ip.1.byte (off + j) := by
  unfold readi at h ⊢
  rw [List.length_map, List.length_range] at h
  rw [h]
  refine ⟨?_, ?_, fun j hj => ?_⟩
  · unfold count u32 at h
    split_ifs at h <;> omega
  · unfold count u32 at h
    split_ifs at h <;> omega
  · rw [List.getD_eq_getElem _ _ (by simpa using hj)]
    simp

theorem field_congr {f g : ℕ → UInt8} {w : ℕ} (h : ∀ j < n, f j = g j) (hw : off + w ≤ n) :
    field f off w = field g off w :=
  leDecode_congr fun j hj => h (off + j) (by omega)

/-- The header of the file, and its `k`-th program header, as they are stored. -/
def header (ip : File) : Elfhdr := .ofBytes ip.1.byte

def segment (ip : File) (off k : ℕ) : Proghdr := .ofBytes fun j => ip.1.byte (off + phSize * k + j)

theorem header_read (h : (readi ip 0 elfSize).length = elfSize) :
    Elfhdr.ofBytes ((readi ip 0 elfSize).getD · 0) = header ip := by
  obtain ⟨-, -, hbytes⟩ := readi_full (by decide) (by decide) h
  have hfield : ∀ off w, off + w ≤ elfSize →
      field ((readi ip 0 elfSize).getD · 0) off w = field ip.1.byte off w := by
    intro off w hw
    refine field_congr (fun j hj => ?_) hw
    rw [hbytes j hj, Nat.zero_add]
  unfold header Elfhdr.ofBytes
  rw [hfield 0 4 (by decide), hfield 24 8 (by decide), hfield 32 8 (by decide),
    hfield 56 2 (by decide)]

theorem segment_read (h : (readi ip off phSize).length = phSize) :
    Proghdr.ofBytes ((readi ip off phSize).getD · 0) = segment ip off 0 := by
  obtain ⟨-, -, hbytes⟩ := readi_full (by decide) (by decide) h
  have hfield : ∀ o w, o + w ≤ phSize → field ((readi ip off phSize).getD · 0) o w =
      field (fun j => ip.1.byte (off + phSize * 0 + j)) o w :=
    fun o w hw => field_congr hbytes hw
  unfold segment Proghdr.ofBytes
  rw [hfield 0 4 (by decide), hfield 8 8 (by decide), hfield 16 8 (by decide),
    hfield 32 8 (by decide), hfield 40 8 (by decide)]

theorem loadsegFrom_inside {va fuel i : ℕ} {a : ℤ} (hsz : sz < 2 ^ 32) (hi : i < sz)
    (hoff : off + i < 2 ^ 32)
    (h : loadsegFrom pagetable va ip off sz fuel i m = .done a m') (ha : ¬ a < 0) :
    off + sz ≤ ip.1.size := by
  induction fuel generalizing i m with
  | zero => cases h
  | succ fuel ih =>
    unfold loadsegFrom at h
    rw [if_pos hi] at h
    obtain ⟨pa, m1, -, h⟩ := done_bind h
    by_cases hpa : pa = 0
    · rw [if_pos hpa] at h
      cases h
    rw [if_neg hpa] at h
    obtain ⟨-, m2, -, h⟩ := done_bind h
    rw [show u32 (off + i) = off + i from Nat.mod_eq_of_lt hoff] at h
    obtain ⟨n, hn⟩ : ∃ n, n = if sz - i < PGSIZE then sz - i else PGSIZE := ⟨_, rfl⟩
    rw [← hn] at h
    by_cases hlen : (readi ip (off + i) n).length ≠ n
    · rw [if_pos hlen] at h
      cases h
      exact absurd (by decide) ha
    rw [if_neg hlen] at h
    have hpage : 0 < PGSIZE := by decide
    obtain ⟨hwrap, hin, -⟩ := readi_full (by split_ifs at hn <;> omega)
      (by split_ifs at hn <;> omega) (not_not.1 hlen)
    split_ifs at hn with hlast
    · omega
    · rw [show u32 (i + PGSIZE) = i + PGSIZE from Nat.mod_eq_of_lt (by omega)] at h
      rcases Nat.lt_or_ge (i + PGSIZE) sz with hmore | hend
      · exact ih hmore (by omega) h
      · omega

theorem loadseg_inside {va : ℕ} {a : ℤ} (hsz : 0 < u32 sz)
    (h : loadseg pagetable va ip (u32 off) (u32 sz) m = .done a m') (ha : ¬ a < 0) :
    u32 off + u32 sz ≤ ip.1.size := by
  unfold loadseg at h
  split at h
  · cases h
  · exact loadsegFrom_inside (u32_lt sz) hsz (by rw [Nat.add_zero]; exact u32_lt off) h ha

theorem loadFrom_inside {sz' : ℕ} (h : loadFrom K pagetable ip n off sz m = .done (sz', true) m') :
    (0 < n → off + phSize * n ≤ ip.1.size) ∧
      ∀ k < n, (segment ip off k).type = ELF_PROG_LOAD → 0 < u32 (segment ip off k).filesz →
        u32 (segment ip off k).off + u32 (segment ip off k).filesz ≤ ip.1.size := by
  induction n generalizing off sz m with
  | zero => exact ⟨fun h => absurd h (by decide), fun k hk => absurd hk (Nat.not_lt_zero k)⟩
  | succ n ih =>
    have hstep : (readi ip off phSize).length = phSize ∧ (∃ sz1 m1,
        loadFrom K pagetable ip n (u32 (off + phSize)) sz1 m1 = .done (sz', true) m') ∧
        ((segment ip off 0).type = ELF_PROG_LOAD → 0 < u32 (segment ip off 0).filesz →
          u32 (segment ip off 0).off + u32 (segment ip off 0).filesz ≤ ip.1.size) := by
      unfold loadFrom at h
      dsimp only at h
      by_cases hlen : (readi ip off phSize).length ≠ phSize
      · rw [if_pos hlen] at h
        cases h
      rw [if_neg hlen, segment_read (not_not.1 hlen)] at h
      refine ⟨not_not.1 hlen, ?_⟩
      by_cases htype : (segment ip off 0).type ≠ ELF_PROG_LOAD
      · rw [if_pos htype] at h
        exact ⟨⟨sz, m, h⟩, fun hload => absurd hload htype⟩
      rw [if_neg htype] at h
      split at h
      · cases h
      split at h
      · cases h
      obtain ⟨sz1, m1, -, h⟩ := done_bind h
      split at h
      · cases h
      split at h
      · cases h
      · obtain ⟨a, m2, hseg, h⟩ := done_bind h
        split at h
        · cases h
        · next ha =>
          exact ⟨⟨sz1, m2, h⟩, fun _ hpos => loadseg_inside hpos hseg ha⟩
    obtain ⟨hlen, ⟨sz1, m1, hrest⟩, hfirst⟩ := hstep
    obtain ⟨hwrap, hin, -⟩ := readi_full (by decide) (by decide) hlen
    rw [show u32 (off + phSize) = off + phSize from Nat.mod_eq_of_lt hwrap] at hrest
    obtain ⟨htable, hsegments⟩ := ih hrest
    have hshift : ∀ k, segment ip (off + phSize) k = segment ip off (k + 1) := by
      intro k
      unfold segment
      rw [Nat.mul_succ, Nat.add_assoc off, Nat.add_comm phSize]
    refine ⟨fun _ => ?_, fun k hk => ?_⟩
    · rcases Nat.eq_zero_or_pos n with rfl | hpos
      · exact hin
      · have := htable hpos
        rw [Nat.mul_succ]
        omega
    · cases k with
      | zero => exact hfirst
      | succ k =>
        rw [← hshift]
        exact hsegments k (by omega)

def Inside (ip : File) (off n : ℕ) : Prop := 0 < n → off + n ≤ ip.1.size

structure HeadersInside (ip : File) : Prop where
  table : Inside ip (header ip).phoff ((header ip).phnum * phSize)
  segments : ∀ k < (header ip).phnum,
    (segment ip (header ip).phoff k).type = ELF_PROG_LOAD →
      Inside ip (segment ip (header ip).phoff k).off (segment ip (header ip).phoff k).filesz

structure HeadersFit (ip : File) : Prop where
  table : 0 < (header ip).phnum → (header ip).phoff < 2 ^ 32
  segments : ∀ k < (header ip).phnum,
    (segment ip (header ip).phoff k).type = ELF_PROG_LOAD →
      0 < (segment ip (header ip).phoff k).filesz →
      (segment ip (header ip).phoff k).off < 2 ^ 32 ∧
        (segment ip (header ip).phoff k).filesz < 2 ^ 32

theorem HeadersInside.fit (h : HeadersInside ip) : HeadersFit ip := by
  have hlt := ip.2
  refine ⟨fun hpos => ?_, fun k hk hload hpos => ?_⟩
  · have := h.table (Nat.mul_pos hpos (by decide))
    omega
  · have := h.segments k hk hload hpos
    omega

theorem execLoad_loads {trapframe entry : ℕ}
    (h : execLoad K trapframe ip m = .done (some (entry, pagetable, sz)) m') :
    ∃ m1, loadFrom K pagetable ip (header ip).phnum (u32 (header ip).phoff) 0 m1 =
      .done (sz, true) m' := by
  unfold execLoad at h
  dsimp only at h
  split_ifs at h with hlen hmagic
  · cases h
  · cases h
  · rw [header_read (not_not.1 hlen)] at h
    obtain ⟨pt, m1, -, h⟩ := done_bind h
    split_ifs at h with hzero
    · cases h
    · obtain ⟨⟨sz', ok⟩, m2, hload, h⟩ := done_bind h
      dsimp only at h
      cases ok with
      | false =>
        rw [if_pos rfl] at h
        obtain ⟨-, m3, -, h⟩ := done_bind h
        cases h
      | true =>
        rw [if_neg nofun] at h
        obtain ⟨hsome, rfl⟩ := Outcome.done.inj h
        obtain ⟨-, hpair⟩ := Prod.mk.inj (Option.some.inj hsome)
        obtain ⟨rfl, rfl⟩ := Prod.mk.inj hpair
        exact ⟨m1, hload⟩

/-- If `exec` succeeds, the headers point into the file exactly if what they refer to fits into 32
    bits. -/
theorem exec_headers_iff {p p' : Process} {path : List UInt8} {argv : List ℕ} {argc : ℤ}
    (h : exec K p (some ip) path argv m = .done (argc, p') m') (hargc : 0 ≤ argc) :
    HeadersInside ip ↔ HeadersFit ip := by
  refine ⟨HeadersInside.fit, fun hfit => ?_⟩
  obtain ⟨loaded, m1, hload, h⟩ := done_bind h
  obtain _ | ⟨entry, pagetable, sz⟩ := loaded
  · cases h
    exact absurd hargc (by decide)
  obtain ⟨m0, hfrom⟩ := execLoad_loads hload
  refine ⟨fun hpos => ?_, fun k hk hload hpos => ?_⟩
  · have hnum : 0 < (header ip).phnum := Nat.pos_of_mul_pos_right hpos
    rw [show u32 (header ip).phoff = (header ip).phoff from Nat.mod_eq_of_lt (hfit.table hnum)]
      at hfrom
    rw [Nat.mul_comm]
    exact (loadFrom_inside hfrom).1 hnum
  · rw [show u32 (header ip).phoff = (header ip).phoff from
      Nat.mod_eq_of_lt (hfit.table (by omega))] at hfrom
    obtain ⟨hoff, hsz⟩ := hfit.segments k hk hload hpos
    have hin := (loadFrom_inside hfrom).2 k hk hload
    unfold u32 at hin
    rw [Nat.mod_eq_of_lt hoff, Nat.mod_eq_of_lt hsz] at hin
    exact hin hpos

def dozen : Image := lastPages 12 (by decide)

def dozenMemory : Memory :=
  (List.range 12).foldr (fun i m => given m (lastPage (i + 1))) blank

/-- A process without memory, as `allocproc` leaves it. -/
def newProcess : Code Memory Process := do
  let trapframe ← kalloc
  let ustack ← kalloc
  let pagetable ← procPagetable dozen trapframe
  return ⟨pagetable, 0, trapframe, ustack, []⟩

/-- One program header, which is not to be loaded, at `64 + high * 2 ^ 32`. -/
def tinyFile (high : UInt8) : File where
  val.size := 120
  val.byte
    | 0 => 0x7F
    | 1 => 0x45
    | 2 => 0x4C
    | 3 => 0x46
    | 32 => 64
    | 36 => high
    | 56 => 1
    | _ => 0
  property := by norm_num

def answer {α : Type} : Outcome α Memory → Option α
  | .done a _ => some a
  | _ => none

theorem answer_done {α : Type} {o : Outcome α Memory} {a : α} (h : answer o = some a) :
    ∃ m, o = .done a m := by
  cases o with
  | done b m =>
    cases h
    exact ⟨m, rfl⟩
  | blocked => cases h
  | panic msg => cases h
  | undefined => cases h

theorem execStart_dozen : ∃ p m pagetable m1 p' m', newProcess dozenMemory = .done p m ∧
    procPagetable dozen p.trapframe m = .done pagetable m1 ∧ pagetable ≠ 0 ∧
    execStart dozen p [97] [] 0 pagetable 0 m1 = .done (0, p') m' := by
  have hrun : answer ((do
      let p ← newProcess
      let pagetable ← procPagetable dozen p.trapframe
      let (argc, _) ← execStart dozen p [97] [] 0 pagetable 0
      return (pagetable, argc)) dozenMemory) = some (lastPage 6, 0) := by
    decide +kernel
  obtain ⟨m2, hrun⟩ := answer_done hrun
  obtain ⟨p, m, hp, hrun⟩ := done_bind hrun
  obtain ⟨pagetable, m1, hpt, hrun⟩ := done_bind hrun
  obtain ⟨⟨argc, p'⟩, m', hstart, hrun⟩ := done_bind hrun
  obtain ⟨hpair, -⟩ := Outcome.done.inj hrun
  obtain ⟨hpage, rfl⟩ := Prod.mk.inj hpair
  exact ⟨p, m, pagetable, m1, p', m', hp, hpt, by rw [hpage]; decide, hstart⟩

theorem exec_tiny (high : UInt8) (hoff : u32 (header (tinyFile high)).phoff = 64) :
    ∃ p m p' m', newProcess dozenMemory = .done p m ∧
      exec dozen p (some (tinyFile high)) [97] [] m = .done (0, p') m' := by
  obtain ⟨p, m, pagetable, m1, p', m', hp, hpt, hne, hstart⟩ := execStart_dozen
  have hload : execLoad dozen p.trapframe (tinyFile high) m = .done
    (some (0, pagetable, 0)) m1 := by
    have hlen : (readi (tinyFile high) 0 elfSize).length = elfSize := rfl
    have hheader : header (tinyFile high) = ⟨ELF_MAGIC, 0, (header (tinyFile high)).phoff, 1⟩ := by
      simp [header, Elfhdr.ofBytes, field, leDecode, tinyFile, ELF_MAGIC]
    have hfrom : loadFrom dozen pagetable (tinyFile high) 1 64 0 m1 = .done (0, true) m1 := rfl
    unfold execLoad
    dsimp only
    rw [if_neg (not_not.2 hlen), header_read hlen, hheader]
    dsimp only
    rw [if_neg (not_not.2 rfl), bind_of_done hpt, if_neg hne, hoff]
    exact bind_of_done hfrom
  exact ⟨p, m, p', m', hp, (bind_of_done hload).trans hstart⟩

theorem exec_headers_tiny : ∃ p m p' m', newProcess dozenMemory = .done p m ∧
    exec dozen p (some (tinyFile 0)) [97] [] m = .done (0, p') m' ∧
    (HeadersInside (tinyFile 0) ↔ HeadersFit (tinyFile 0)) := by
  obtain ⟨p, m, p', m', hp, hexec⟩ := exec_tiny 0 rfl
  exact ⟨p, m, p', m', hp, hexec, exec_headers_iff hexec le_rfl⟩

/-- The program header is 4 GB behind the file's 120 bytes, and `exec` succeeds. -/
theorem exec_outside : ∃ p m p' m', newProcess dozenMemory = .done p m ∧
    exec dozen p (some (tinyFile 1)) [97] [] m = .done (0, p') m' ∧
    ¬ HeadersInside (tinyFile 1) := by
  obtain ⟨p, m, p', m', hp, hexec⟩ := exec_tiny 1 rfl
  refine ⟨p, m, p', m', hp, hexec, fun h => ?_⟩
  have hin : (header (tinyFile 1)).phoff + 1 * phSize ≤ 120 := h.table (by decide)
  exact absurd hin (by decide)

end Xv6.ExecHeaders
