import Xv6.LogHeader
import Xv6.RedoLog
import Xv6.SequentialCache

set_option autoImplicit false

namespace Xv6.LogRecovery
open Resumption CrashLogic ByteFields RedoLog LogCode LogHeader LogActions SequentialCache
open Function (update update_comm update_eq_self update_idem update_of_ne update_self)

variable {b start : UInt32} {j : ℕ} {D d : UInt32 → Block}

/-- A header the log can hold: distinct blocks outside the log, fewer than its size. -/
structure HeadOk (start : UInt32) (bs : List UInt32) : Prop where
  nodup : bs.Nodup
  fits : bs.length < LOGSIZE
  home : ∀ b ∈ bs, ¬ InLog start LOGSIZE b

/-- Replaying the log of `d` gives `D` outside the log. -/
structure Recoverable (start : UInt32) (D d : UInt32 → Block) : Prop where
  head : HeadOk start (headList (d start))
  means : ∀ b, ¬ InLog start LOGSIZE b → replay (headList (d start)) (slot start) d b = D b

section Homes

variable {start : UInt32} {bs : List UInt32}

theorem HeadOk.ne_start (h : HeadOk start bs) (hb : b ∈ bs) : b ≠ start :=
  fun he => h.home b hb (he ▸ inLog_start start (by decide))

theorem HeadOk.slot_ne (h : HeadOk start bs) (hb : b ∈ bs) (hj : j < bs.length) :
    slot start j ≠ b :=
  fun he => h.home b hb (he ▸ inLog_slot start (by have := h.fits; omega))

theorem HeadOk.slot_notMem (h : HeadOk start bs) (hj : j < bs.length) :
    slot start j ∉ bs := fun hm => h.slot_ne hm hj rfl

theorem HeadOk.start_notMem (h : HeadOk start bs) : start ∉ bs := fun hm => h.ne_start hm rfl

theorem headOk_nil : HeadOk start [] := ⟨List.nodup_nil, by decide, by simp⟩

end Homes

theorem Recoverable.fill (h : Recoverable start D d) (hnil : headList (d start) = [])
    (hj : j + 1 < LOGSIZE) (v : Block) :
    Recoverable start D (update d (slot start j) v) := by
  have hs : update d (slot start j) v start = d start :=
    update_of_ne (slot_ne_start (by omega)).symm ..
  constructor
  · rw [hs]
    exact h.head
  · intro b hb
    have hne : b ≠ slot start j := fun he => hb (he ▸ inLog_slot start hj)
    have hm := h.means b hb
    rw [hnil, replay_nil] at hm
    rw [hs, hnil, replay_nil, update_of_ne hne, hm]

theorem Recoverable.commit {c : UInt32 → Block} {bs : List UInt32} (h : Recoverable start D d)
    (hnil : headList (d start) = []) (hok : HeadOk start bs)
    (filled : ∀ j (hj : j < bs.length), d (slot start j) = c bs[j]) (hd : Block) :
    Recoverable start (override bs c D) (update d start (putHead bs hd)) := by
  have hbs : headList (update d start (putHead bs hd) start) = bs := by
    rw [update_self, headList_putHead bs hd hok.fits.le]
  constructor
  · rw [hbs]
    exact hok
  · intro b hb
    have hne : b ≠ start := fun he => hb (he ▸ inLog_start start (by decide))
    have hm := h.means b hb
    rw [hnil, replay_nil] at hm
    rw [hbs, replay_filled (c := c)]
    · simp only [override, update_of_ne hne, hm]
    · intro j hj
      rw [update_of_ne (slot_ne_start (hj.trans hok.fits)), filled j hj]

theorem Recoverable.install {bs : List UInt32} (h : Recoverable start D d)
    (hbs : headList (d start) = bs) (hj : j < bs.length) :
    Recoverable start D (update d bs[j] (d (slot start j))) := by
  subst hbs
  have hm := List.getElem_mem hj
  have hs : update d (headList (d start))[j] (d (slot start j)) start = d start :=
    update_of_ne (h.head.ne_start hm).symm ..
  constructor
  · rw [hs]
    exact h.head
  · intro b hb
    rw [hs, replay_install hj fun i hi => h.head.slot_ne hm hi]
    exact h.means b hb

theorem Recoverable.clear
    (h : Recoverable start D d)
    (installed : ∀ j (hj : j < (headList (d start)).length),
      d (headList (d start))[j] = d (slot start j)) (hd : Block) :
    Recoverable start D (update d start (putHead [] hd)) ∧
      ∀ b, ¬ InLog start LOGSIZE b → update d start (putHead [] hd) b = D b := by
  have plain : ∀ b, ¬ InLog start LOGSIZE b → update d start (putHead [] hd) b = D b := by
    intro b hb
    have hne : b ≠ start := fun he => hb (he ▸ inLog_start start (by decide))
    rw [update_of_ne hne, ← h.means b hb, replay_installed installed]
  have hnil : headList (update d start (putHead [] hd) start) = [] := by
    rw [update_self, headList_putHead [] hd (by decide)]
  refine ⟨⟨?_, ?_⟩, plain⟩
  · rw [hnil]
    exact headOk_nil
  · intro b hb
    rw [hnil, replay_nil]
    exact plain b hb

section Code

variable {p : Proc} {dv start : UInt32} {V : UInt32 → Block} {P X : UInt32 → Prop} {g : Kern}
  {K : (UInt32 → Block) → List Event → Prop} {bs : List UInt32} {k : ℕ}

abbrev noRefs : UInt32 → ℕ := fun _ => 0

theorem update_noRefs (b : UInt32) : update noRefs b 0 = noRefs :=
  update_eq_self b noRefs

theorem release_one (b : UInt32) : update (update noRefs b 1) b 0 = noRefs := by
  rw [update_idem, update_noRefs]

theorem release_second {s : UInt32} (h : s ≠ b) :
    update (update (update noRefs s 1) b 1) b 0 =
      update noRefs s 1 := by
  rw [update_idem, update_comm h, update_noRefs]

structure HeadWritten (dv : UInt32) (V : UInt32 → Block) (P X : UInt32 → Prop) (g g' : Kern) :
    Prop where
  cached : Cached dv (update V g.log.start (putHead g.log.lh (g.disk g.log.start))) P X
    noRefs g'
  disk : g'.disk =
    update g.disk g.log.start (putHead g.log.lh (g.disk g.log.start))
  log : g'.log = g.log
  trace : g'.trace = .wrote g.log.start (putHead g.log.lh (g.disk g.log.start)) :: g.trace

theorem writeHead_safe (hc : Cached dv V P X noRefs g) (hdev : g.log.dev = dv)
    (hX : ¬ X g.log.start) (hP : ¬ P g.log.start) (hK : K g.disk g.trace)
    (hK' : K (update g.disk g.log.start (putHead g.log.lh (g.disk g.log.start)))
      (.wrote g.log.start (putHead g.log.lh (g.disk g.log.start)) :: g.trace)) :
    CrashSafe kern p (fun g => K g.disk g.trace) writeHead
      (fun _ => HeadWritten dv V P X g) g := by
  refine getLog_safe hK ?_
  rw [hdev]
  refine CrashSafe.bind ((bread_safe hc hK hX rfl).mono ?_)
  intro i g2 hK2 hb
  refine getData_safe hK2 (getLog_safe hK2 ?_)
  have hd : putHead g2.log.lh (g2.buf i).data =
      putHead g.log.lh (g.disk g.log.start) := by
    rw [hb.same.2.1, hb.cached.data_eq hb.isBuf, ← hc.clean hP]
  rw [hd]
  refine store_safe hb.cached hK2 hb.isBuf ?_ ?_
  · rw [hb.same.1, hb.same.2.2]
    exact hK'
  · intro g5 hK5 hs
    refine (brelse_safe hs.cached hK5 (hs.keeps _ _ hb.isBuf) (update_self ..)).mono ?_
    intro u g6 _ hr
    refine ⟨?_, ?_, ?_, ?_⟩
    · rw [← release_one g.log.start]
      exact hr.cached
    · rw [hr.same.1, hs.disk, hb.same.1]
    · rw [hr.same.2.1, hs.log, hb.same.2.1]
    · rw [hr.same.2.2, hs.trace, hb.same.2.2]

structure Installed (dv start : UInt32) (bs : List UInt32) (g g' : Kern) : Prop where
  cached : ∃ V X, Cached dv V (fun _ => False) X noRefs g' ∧ ∀ b, X b → b ∈ bs
  installed : ∀ j (hj : j < bs.length), g'.disk bs[j] = g'.disk (slot start j)
  head : headList (g'.disk start) = bs
  log : g'.log = g.log

section Pair

variable {α : Type} {Q : α → Kern → Prop}

/-- A slot of the log and the home of its block, both read. -/
structure Opened (dv : UInt32) (V : UInt32 → Block) (P X : UInt32 → Prop) (s b : UInt32)
    (g : Kern) (i j : BufId) (g' : Kern) : Prop where
  cached : Cached dv V P X (update (update noRefs s 1) b 1) g'
  slot : IsBuf g' i dv s
  home : IsBuf g' j dv b
  same : SameStore g g'

theorem pair_safe {r : BufId → BufId → Prog Act α} {s : UInt32} (hc : Cached dv V P X noRefs g)
    (hK : K g.disk g.trace) (hXs : ¬ X s) (hXb : ¬ X b) (hne : s ≠ b)
    (tail : ∀ i j g', K g'.disk g'.trace → Opened dv V P X s b g i j g' →
      CrashSafe kern p (fun g => K g.disk g.trace) (r i j) Q g') :
    CrashSafe kern p (fun g => K g.disk g.trace)
      (bread dv s >>= fun i => bread dv b >>= r i) Q g := by
  refine CrashSafe.bind ((bread_safe hc hK hXs rfl).mono ?_)
  intro i g1 hK1 hi
  refine CrashSafe.bind ((bread_safe hi.cached hK1 hXb (update_of_ne hne.symm ..)).mono ?_)
  intro j g2 hK2 hj
  exact tail i j g2 hK2 ⟨hj.cached, hj.keeps _ _ hi.isBuf (.inr (by rw [update_self]; omega)),
    hj.isBuf, hj.same.1.trans hi.same.1, hj.same.2.1.trans hi.same.2.1,
    hj.same.2.2.trans hi.same.2.2⟩

end Pair

/-- The first `k` blocks of the header are installed. An installed block is given up: its count is
    not followed further. -/
structure Installing (dv start : UInt32) (bs : List UInt32) (k : ℕ) (V : UInt32 → Block)
    (P X : UInt32 → Prop) (g : Kern) : Prop where
  cached : Cached dv V P X noRefs g
  dev : g.log.dev = dv
  area : g.log.start = start
  lh : g.log.lh = bs
  head : headList (g.disk start) = bs
  pinned : ∀ b, P b → b ∈ bs.drop k
  given : ∀ b, X b → b ∈ bs.take k
  done : ∀ j (hj : j < bs.length), j < k → g.disk bs[j] = g.disk (slot start j)

theorem Installing.installed (h : Installing dv start bs k V P X g) (hle : bs.length ≤ k) :
    Installed dv start bs g g := by
  have hdrop : bs.drop k = [] := List.drop_eq_nil_of_le hle
  have hPF : P = fun _ => False := by
    funext b
    exact eq_false fun hb => by simpa [hdrop] using h.pinned b hb
  exact ⟨⟨V, X, hPF ▸ h.cached, fun b hb => List.mem_of_mem_take (h.given b hb)⟩,
    fun j hj => h.done j hj (by omega), h.head, rfl⟩

theorem Installing.next {g' : Kern} {V' : UInt32 → Block} (h : Installing dv start bs k V P X g)
    (hok : HeadOk start bs) (hlt : k < bs.length)
    (hc : Cached dv V' (fun x => P x ∧ x ≠ bs[k]) (fun x => X x ∨ x = bs[k]) noRefs g')
    (hlog : g'.log = g.log) (hdisk : g'.disk = update g.disk bs[k] (g.disk (slot start k))) :
    Installing dv start bs (k + 1) V' (fun x => P x ∧ x ≠ bs[k]) (fun x => X x ∨ x = bs[k]) g' := by
  have hmem := List.getElem_mem hlt
  refine ⟨hc, by rw [hlog, h.dev], by rw [hlog, h.area], by rw [hlog, h.lh], ?_, ?_, ?_, ?_⟩
  · rw [hdisk, update_of_ne (hok.ne_start hmem).symm, h.head]
  · rintro x ⟨hx, hne⟩
    have := h.pinned x hx
    rw [List.drop_eq_getElem_cons hlt, List.mem_cons] at this
    exact this.resolve_left hne
  · rintro x (hx | rfl)
    · exact List.take_subset_take_left bs (Nat.le_succ k) (h.given x hx)
    · exact List.mem_take_iff_getElem.2 ⟨k, by omega, rfl⟩
  · intro j hj hjk
    by_cases he : j = k
    · subst he
      rw [hdisk, update_self, update_of_ne (hok.slot_ne hmem hlt)]
    · have hne : bs[j] ≠ bs[k] := fun h => he ((hok.nodup.getElem_inj_iff).1 h)
      rw [hdisk, update_of_ne hne, update_of_ne (hok.slot_ne hmem hj)]
      exact h.done j hj (by omega)

theorem installTransFrom_safe (start : UInt32) (bs : List UInt32) (fuel k : ℕ)
    (hfuel : bs.length ≤ k + fuel) (hok : HeadOk start bs) (h : Installing dv start bs k V P X g)
    (hK : K g.disk g.trace)
    (stable : ∀ d tr j (hj : j < bs.length), headList (d start) = bs → K d tr →
      K (update d bs[j] (d (slot start j))) (.wrote bs[j] (d (slot start j)) :: tr)) :
    CrashSafe kern p (fun g => K g.disk g.trace) (installTransFrom fuel k)
      (fun _ => Installed dv start bs g) g := by
  induction fuel generalizing k V P X g with
  | zero => exact ⟨hK, h.installed (by omega)⟩
  | succ fuel ih =>
    refine getLog_safe hK ?_
    rw [h.lh]
    cases hk : bs[k]? with
    | none => exact ⟨hK, h.installed (List.getElem?_eq_none_iff.1 hk)⟩
    | some b =>
      obtain ⟨hlt, rfl⟩ := List.getElem?_eq_some_iff.1 hk
      have hslot : slot start k ≠ bs[k] := hok.slot_ne (List.getElem_mem hlt) hlt
      have hnot := hok.slot_notMem hlt
      have hXb : ¬ X bs[k] := fun hx => by
        obtain ⟨j, hj, he⟩ := List.mem_take_iff_getElem.1 (h.given _ hx)
        have := (hok.nodup.getElem_inj_iff).1 he
        omega
      rw [h.dev, h.area]
      refine pair_safe (s := slot start k) h.cached hK
        (fun hx => hnot (List.mem_of_mem_take (h.given _ hx))) hXb hslot
        fun lbuf dbuf g3 hK3 ho => ?_
      have hdisk : g3.disk = g.disk := ho.same.1
      refine getData_safe hK3 ?_
      have hdata : (g3.buf lbuf).data = g3.disk (slot start k) := by
        rw [ho.cached.data_eq ho.slot, hdisk,
          h.cached.clean fun hp => hnot (List.mem_of_mem_drop (h.pinned _ hp))]
      rw [hdata]
      have hhead : headList (g3.disk start) = bs := by rw [hdisk, h.head]
      refine store_safe ho.cached hK3 ho.home (stable _ _ k hlt hhead hK3) ?_
      intro g5 hK5 hs
      have hgive := hs.cached.giveUp (b := bs[k]) (by rw [hs.disk, update_self, update_self])
      rw [release_second hslot] at hgive
      have hdbuf := hs.keeps _ _ ho.home
      refine CrashSafe.act hK5 fun u g6 h6 => ?_
      obtain rfl := bunpin_done h6
      have hc6 := hgive.touch dbuf (fun f => { f with refcnt := f.refcnt - 1 }) rfl rfl rfl rfl
        fun _ hx => absurd (.inr hdbuf.2.1) hx
      have hdbuf6 := isBuf_modBuf dbuf (fun f => { f with refcnt := f.refcnt - 1 }) hdbuf
        rfl rfl rfl rfl
      have hlbuf6 := isBuf_modBuf dbuf (fun f => { f with refcnt := f.refcnt - 1 })
        (hs.keeps _ _ ho.slot) rfl rfl rfl rfl
      refine CrashSafe.bind ((brelse_safe hc6 (crash_same hK5 ⟨rfl, rfl, rfl⟩) hlbuf6
        (update_self ..)).mono ?_)
      intro u g7 hK7 hr
      have hc7 := hr.cached
      rw [release_one] at hc7
      refine CrashSafe.bind ((brelse_safe_of_givenUp hc7 hK7 (hr.keeps _ _ hdbuf6)
        (.inr rfl)).mono ?_)
      intro u g8 hK8 hr'
      have hlog8 : g8.log = g.log := by
        rw [hr'.same.2.1, hr.same.2.1, modBuf_log, hs.log, ho.same.2.1]
      have hdisk8 : g8.disk = update g.disk bs[k] (g.disk (slot start k)) := by
        rw [hr'.same.1, hr.same.1, modBuf_disk, hs.disk, hdisk]
      refine (ih (k + 1) (by omega) (h.next hok hlt hr'.cached hlog8 hdisk8) hK8).mono ?_
      intro u g9 _ hi
      exact ⟨hi.cached, hi.installed, hi.head, hi.log.trans hlog8⟩

structure Filled (dv start : UInt32) (V : UInt32 → Block) (P X : UInt32 → Prop)
    (bs : List UInt32) (g g' : Kern) : Prop where
  cached : ∃ V', Cached dv V' P X noRefs g' ∧ ∀ b ∈ bs, V' b = V b
  filled : ∀ j (hj : j < bs.length), g'.disk (slot start j) = V bs[j]
  head : headList (g'.disk start) = []
  log : g'.log = g.log

theorem writeLogFrom_safe (fuel k : ℕ) (hfuel : bs.length ≤ k + fuel)
    (hc : Cached dv V P X noRefs g) (hdev : g.log.dev = dv) (hstart : g.log.start = start)
    (hlh : g.log.lh = bs) (hok : HeadOk start bs) (hhead : headList (g.disk start) = [])
    (hX : ∀ b, ¬ X b) (hK : K g.disk g.trace)
    (stable : ∀ d tr j v, j < bs.length → headList (d start) = [] → K d tr →
      K (update d (slot start j) v) (.wrote (slot start j) v :: tr))
    (filled : ∀ j (hj : j < bs.length), j < k → g.disk (slot start j) = V bs[j]) :
    CrashSafe kern p (fun g => K g.disk g.trace) (writeLogFrom fuel k)
      (fun _ => Filled dv start V P X bs g) g := by
  induction fuel generalizing k V g with
  | zero => exact ⟨hK, ⟨V, hc, fun _ _ => rfl⟩, fun j hj => filled j hj (by omega), hhead, rfl⟩
  | succ fuel ih =>
    refine getLog_safe hK ?_
    rw [hlh]
    cases hk : bs[k]? with
    | none =>
      have hle : bs.length ≤ k := List.getElem?_eq_none_iff.1 hk
      exact ⟨hK, ⟨V, hc, fun _ _ => rfl⟩, fun j hj => filled j hj (by omega), hhead, rfl⟩
    | some b =>
      obtain ⟨hlt, rfl⟩ := List.getElem?_eq_some_iff.1 hk
      have hslot : slot start k ≠ bs[k] := hok.slot_ne (List.getElem_mem hlt) hlt
      have hfits := hok.fits
      rw [hdev, hstart]
      refine pair_safe (s := slot start k) hc hK (hX _) (hX _) hslot fun to_ from_ g3 hK3 ho => ?_
      have hdisk : g3.disk = g.disk := ho.same.1
      refine getData_safe hK3 ?_
      rw [ho.cached.data_eq ho.home]
      have hhead3 : headList (g3.disk start) = [] := by rw [hdisk, hhead]
      refine store_safe ho.cached hK3 ho.slot (stable _ _ k _ hlt hhead3 hK3) ?_
      intro g5 hK5 hs
      refine CrashSafe.bind ((brelse_safe hs.cached hK5 (hs.keeps _ _ ho.home)
        (update_self ..)).mono ?_)
      intro u g6 hK6 hr
      have hc6 := hr.cached
      rw [release_second hslot] at hc6
      refine CrashSafe.bind ((brelse_safe hc6 hK6 (hr.keeps _ _ (hs.keeps _ _ ho.slot))
        (update_self ..)).mono ?_)
      intro u g7 hK7 hr'
      have hc7 := hr'.cached
      rw [release_one] at hc7
      have hlog7 : g7.log = g.log := by
        rw [hr'.same.2.1, hr.same.2.1, hs.log, ho.same.2.1]
      have hdisk7 : g7.disk = update g.disk (slot start k) (V bs[k]) := by
        rw [hr'.same.1, hr.same.1, hs.disk, hdisk]
      have hV : ∀ b ∈ bs, update V (slot start k) (V bs[k]) b = V b :=
        fun b hb => update_of_ne (hok.slot_ne hb hlt).symm ..
      refine (ih (k + 1) (by omega) hc7 (by rw [hlog7, hdev]) (by rw [hlog7, hstart])
        (by rw [hlog7, hlh]) ?_ hK7 ?_).mono ?_
      · rw [hdisk7, update_of_ne (slot_ne_start (by omega)).symm, hhead]
      · intro j hj hjk
        rw [hV _ (List.getElem_mem hj), hdisk7]
        by_cases he : j = k
        · subst he
          rw [update_self]
        · rw [update_of_ne fun h => he (slot_injective (by omega) (by omega) h)]
          exact filled j hj (by omega)
      · rintro u g8 _ ⟨⟨V', hc8, hV'⟩, hfill, hhd, hlog⟩
        refine ⟨⟨V', hc8, fun b hb => (hV' b hb).trans (hV b hb)⟩, ?_, hhd, hlog.trans hlog7⟩
        intro j hj
        rw [hfill j hj, hV _ (List.getElem_mem hj)]

end Code

def boot (d : UInt32 → Block) : Kern := { binit with disk := d }

theorem cached_boot (d : UInt32 → Block) (log : Log) :
    Cached ROOTDEV d (fun _ => False) (fun _ => False) noRefs { boot d with log := log } := by
  have hdev : ∀ i, (({ boot d with log := log } : Kern).buf i).dev ≠ ROOTDEV :=
    fun i => show (0 : UInt32) ≠ 1 by decide
  constructor
  · intro i
    exact List.mem_reverse.2 (List.mem_finRange i)
  · exact fun i j hi _ _ => absurd hi (hdev i)
  · exact fun i hi _ => absurd hi (hdev i)
  · exact fun b h => h rfl
  · exact fun i hi _ => absurd hi (hdev i)
  · exact fun i hi _ => absurd hi (hdev i)
  · rintro b (h | h)
    · exact h.elim
    · exact absurd h (Nat.lt_irrefl 0)

structure Clean (start : UInt32) (D d : UInt32 → Block) : Prop where
  empty : getU32 (d start) 0 = 0
  contents : ∀ b, ¬ InLog start LOGSIZE b → d b = D b

structure Booted (start : UInt32) (D : UInt32 → Block) (g : Kern) : Prop where
  clean : Clean start D g.disk
  log : g.log = ⟨start, LOGSIZE, 0, false, ROOTDEV, []⟩
  cached : ∃ V X, Cached ROOTDEV V (fun _ => False) X noRefs g
  head : headList (g.disk start) = []

theorem initlog_safe (p : Proc) (h : Recoverable start D d) :
    CrashSafe kern p (fun g => Recoverable start D g.disk) (initlog ROOTDEV start LOGSIZE)
      (fun _ => Booted start D) (boot d) := by
  refine CrashSafe.act h fun u g1 h1 => ?_
  obtain rfl := setLog_done h1
  have hc := cached_boot d ⟨start, LOGSIZE, 0, false, ROOTDEV, []⟩
  let K : (UInt32 → Block) → List Event → Prop := fun d _ => Recoverable start D d
  change CrashSafe kern p (fun g => K g.disk g.trace) recoverFromLog
    (fun _ => Booted start D) { boot d with log := ⟨start, LOGSIZE, 0, false, ROOTDEV, []⟩ }
  generalize hg0 : ({ boot d with log := ⟨start, LOGSIZE, 0, false, ROOTDEV, []⟩ } :
  Kern) = g0 at hc ⊢
  have hdisk0 : g0.disk = d := by rw [← hg0]; rfl
  have hlog0 : g0.log = ⟨start, LOGSIZE, 0, false, ROOTDEV, []⟩ := by rw [← hg0]
  have hK0 : K g0.disk g0.trace := hdisk0 ▸ h
  -- read_head
  refine CrashSafe.bind (getLog_safe hK0 ?_)
  rw [hlog0]
  refine CrashSafe.bind ((bread_safe hc hK0 (fun h => h) rfl).mono ?_)
  intro i g1 hK1 hb
  refine getData_safe hK1 ?_
  rw [hb.cached.data_eq hb.isBuf]
  refine CrashSafe.act hK1 fun u g2 h2 => ?_
  obtain ⟨-, rfl⟩ := setLh_done h2
  have hc2 : Cached ROOTDEV d (fun _ => False) (fun _ => False) (update noRefs start 1)
      (g1.modLog fun l => { l with lh := headList (d start) }) :=
    { hb.cached with }
  refine (brelse_safe hc2 hK1 hb.isBuf (update_self ..)).mono ?_
  intro u g3 hK3 hr
  have hc3 := hr.cached
  rw [release_one] at hc3
  have hdisk3 : g3.disk = d := by rw [hr.same.1, modLog_disk, hb.same.1, hdisk0]
  have hlog3 : g3.log = ⟨start, LOGSIZE, 0, false, ROOTDEV, headList (d start)⟩ := by
    rw [hr.same.2.1, modLog_log, hb.same.2.1, hlog0]
  -- install_trans
  refine CrashSafe.bind ((installTransFrom_safe start (headList (d start)) LOGSIZE 0
    (by have := h.head.fits; omega) h.head ⟨hc3, by rw [hlog3], by rw [hlog3], by rw [hlog3],
    by rw [hdisk3], fun b hb => hb.elim, fun b hb => hb.elim, fun j hj h0 => absurd h0 (by omega)⟩
    hK3 fun d' tr j hj hhead hK => hK.install hhead hj).mono ?_)
  rintro u g4 hK4 ⟨⟨V, X, hc4, hX⟩, hinst, hhead, hlog4⟩
  refine CrashSafe.act hK4 fun u g5 h5 => ?_
  obtain ⟨-, rfl⟩ := setLh_done h5
  have hc5 : Cached ROOTDEV V (fun _ => False) X noRefs (g4.modLog fun l => { l with lh := [] }) :=
    { hc4 with }
  have hlog5 : (g4.modLog fun l => { l with lh := [] }).log =
      ⟨start, LOGSIZE, 0, false, ROOTDEV, []⟩ := by
    rw [modLog_log, hlog4, hlog3]
  have hclear := Recoverable.clear hK4 (by rw [hhead]; exact hinst) (g4.disk start)
  -- write_head
  refine (writeHead_safe hc5 (by rw [hlog5]) ?_ (fun h => h) hK4 ?_).mono ?_
  · rw [hlog5]
    exact fun hx => h.head.start_notMem (hX _ hx)
  · rw [hlog5]
    exact hclear.1
  · rintro u g6 - hw
    have hdisk6 := hw.disk
    rw [hlog5, modLog_disk] at hdisk6
    refine ⟨⟨?_, ?_⟩, by rw [hw.log, hlog5], ⟨_, X, hw.cached⟩, ?_⟩
    · rw [hdisk6, update_self, getU32_putHead_zero]
      rfl
    · rw [hdisk6]
      exact hclear.2
    · rw [hdisk6, update_self, headList_putHead [] _ (by decide)]

end Xv6.LogRecovery
