import Xeros.Procs.Effects
import Xeros.PidMap.Search
/-!
# No pid is used twice

The pid map can lose entries, and then `getNextPid` cannot see which pids are in
use. It does not have to: it never looks back. Until its counter wraps, `create`
hands out consecutive pids, and a pid leads to the process it was given to or to
no process, whether that process is still in use or not (`RegistryInv.fresh`).
-/

namespace Xeros

open Assoc TreeNode Kernel Runs

variable {im : Image} {k k1 k' : Kernel} {s s' : Sys} {p q : Idx} {e : Event} {r : Word}

/-! ## The counter -/

/-- All pids there are lie below the counter, and no two PCBs have the same one. -/
structure Numbered (k : Kernel) : Prop where
  ordered : k.pidMap.Ordered
  keys : ∀ q v, (q, v) ∈ k.pidMap.entries → q < k.nextPid
  pids : ∀ i, k.pid i < k.nextPid
  distinct : ∀ i j, k.pid i = k.pid j → k.pid i ≠ 0 → i = j

/-- No process gets a pid, and the map may lose entries. -/
structure KeepsPids (k k' : Kernel) : Prop where
  nextPid : k'.nextPid = k.nextPid
  pid : k'.pid = k.pid
  ordered : k.pidMap.Ordered → k'.pidMap.Ordered
  entries : k.pidMap.Ordered → ∀ x ∈ k'.pidMap.entries, x ∈ k.pidMap.entries

/-- `q` is given the pid `r`, which is the counter, and the map may lose entries. -/
structure GivesPid (k k' : Kernel) (r : Word) (q : Idx) : Prop where
  counter : r = k.nextPid
  nextPid : k'.nextPid = r + 1
  pid : k'.pid = Function.update k.pid q r
  ordered : k'.pidMap.Ordered
  entries : ∀ x ∈ k'.pidMap.entries, x = (r, pcbIndex q) ∨ x ∈ k.pidMap.entries

namespace KeepsPids

theorem of_eq (hnext : k'.nextPid = k.nextPid) (hpid : k'.pid = k.pid) (hmap : k'.pidMap = k.pidMap) :
    KeepsPids k k' := by
  refine ⟨hnext, hpid, ?_, ?_⟩
  · rw [hmap]
    exact id
  · rw [hmap]
    exact fun _ _ => id

theorem trans (h : KeepsPids k k1) (h' : KeepsPids k1 k') : KeepsPids k k' :=
  ⟨h'.nextPid.trans h.nextPid, h'.pid.trans h.pid, fun ho => h'.ordered (h.ordered ho),
    fun ho x hx => h.entries ho x (h'.entries (h.ordered ho) x hx)⟩

theorem of_moves (h : Moves k k') : KeepsPids k k' := by
  apply of_eq
  · rw [h]
  · rw [h]
  · rw [h]

theorem cleanup (h : Xeros.cleanup keyboards k p = some k') : KeepsPids k k' := by
  obtain ⟨k1, k2, k3, h1, h2, h3, hd⟩ := cleanup_cases h
  have hclosed : KeepsPids k2 k3 := by
    rw [close_all_eq] at h3
    apply of_eq
    · rw [h3]
    · rw [h3]
    · rw [h3]
  refine trans (of_moves (.drain h1)) (trans (of_moves (.drain h2)) (trans hclosed ?_))
  obtain ⟨⟨t, hp⟩, hdel, hd⟩ := Option.bind_eq_some_iff.1 hd
  cases hd
  exact ⟨rfl, rfl, fun ho => (delete_drops ho hdel).2, fun ho x hx => ((delete_drops ho hdel).1.sub hx).2⟩

theorem signal {pid sig_no : Word} {rc : Int} (h : Xeros.signal k pid sig_no = some (k', rc)) : KeepsPids k k' := by
  rcases signal_cases h with rfl | ⟨q, -, rfl | ⟨-, k2, v, hr, rfl⟩⟩
  · exact of_eq rfl rfl rfl
  · exact of_eq rfl rfl rfl
  · have h1 : KeepsPids k (signalled k q sig_no) := of_eq rfl rfl rfl
    exact trans h1 (trans (of_moves (.ready hr)) (of_eq rfl rfl rfl))

/-- Every request but `CREATE`. -/
theorem effect {x : Request} (hx : x ≠ .CREATE) (h : Effect im k k' p x) : KeepsPids k k' := by
  cases h with
  | moves hr hm => exact of_moves hm
  | refused h => exact absurd rfl hx
  | created q pid k1 k2 hfs hloop hins hk1 hr h => exact absurd rfl hx
  | stopped h => exact cleanup h
  | registered handlers allowed h =>
    rw [h]
    exact of_eq rfl rfl rfl
  | returned esp hi_sig irc h =>
    rw [h]
    exact of_eq rfl rfl rfl
  | posted k1 rc v hs h =>
    rw [h]
    exact trans (signal hs) (of_eq rfl rfl rfl)
  | drives dvs hr h =>
    rw [h]
    exact of_eq rfl rfl rfl

theorem dispatch_next {tr : Option Idx} (h : Xeros.dispatch_next im k tr = some s) : KeepsPids k s.kernel := by
  obtain ⟨k2, hm, -, -, hend⟩ := dispatch_next_effect (p := 0) h
  refine trans (of_moves hm) ?_
  rcases hend with rfl | ⟨q, rfl⟩
  · exact of_eq rfl rfl rfl
  · rw [resume_eq]
    exact of_eq rfl rfl rfl

end KeepsPids

namespace Numbered

theorem keep (h : Numbered k) (hk : KeepsPids k k') : Numbered k' := by
  refine ⟨hk.ordered h.ordered, ?_, ?_, ?_⟩
  · intro q v hm
    rw [hk.nextPid]
    exact h.keys q v (hk.entries h.ordered _ hm)
  · rw [hk.nextPid, hk.pid]
    exact h.pids
  · rw [hk.pid]
    exact h.distinct

/-- The pid that a process is given is new. -/
theorem give (h : Numbered k) (hk : GivesPid k k' r q) (hlt : k.nextPid < SYSERR) : Numbered k' := by
  have hnext : k.nextPid < k'.nextPid := by
    rw [hk.nextPid, hk.counter]
    unfold SYSERR at hlt
    bv_omega
  have hnew : ∀ i, k.pid i ≠ r := by
    intro i e
    have hi := h.pids i
    rw [e, hk.counter] at hi
    exact BitVec.lt_irrefl _ hi
  refine ⟨hk.ordered, ?_, ?_, ?_⟩
  · intro q' v hm
    rcases hk.entries _ hm with e | hm
    · obtain ⟨rfl, -⟩ := Prod.mk.inj e
      rw [hk.counter]
      exact hnext
    · exact BitVec.lt_trans (h.keys q' v hm) hnext
  · intro i
    rw [hk.pid, Function.update_apply]
    split
    · rw [hk.counter]
      exact hnext
    · exact BitVec.lt_trans (h.pids i) hnext
  · rw [hk.pid]
    intro i j e hne
    by_cases hi : i = q <;> by_cases hj : j = q
    · rw [hi, hj]
    · subst hi
      rw [Function.update_self, Function.update_of_ne hj] at e
      exact absurd e.symm (hnew j)
    · subst hj
      rw [Function.update_self, Function.update_of_ne hi] at e
      exact absurd e (hnew i)
    · rw [Function.update_of_ne hi] at e hne
      rw [Function.update_of_ne hj] at e
      exact h.distinct i j e hne

end Numbered

/-- Below the wrap the first pid that the search tries is unused. -/
theorem getNextPid_counter (h : Numbered k) (hloop : getNextPid_loop k.pidMap PID_FUEL k.nextPid = some r) :
    r = k.nextPid := by
  have hunused : ¬Taken k.pidMap k.nextPid := by
    rintro (h0 | hl)
    · have hp := h.pids 0
      rw [h0] at hp
      exact BitVec.not_lt_zero hp
    · obtain ⟨v, hv⟩ := Option.isSome_iff_exists.1 hl
      exact BitVec.lt_irrefl _ (h.keys _ v ((lookup_iff h.ordered _ v).1 hv))
  have hfirst : FirstUnused k.pidMap k.nextPid k.nextPid := by
    refine ⟨hunused, ?_⟩
    intro j hj
    simp at hj
  rw [getNextPid_loop_eq hfirst, if_pos (by simp [PID_FUEL])] at hloop
  exact (Option.some.inj hloop).symm

/-- A process is created, under the next pid, or not. -/
theorem create_gives {func stack parent : Word} (h : Numbered k) (hlt : k.nextPid < SYSERR)
    (hc : create im k func stack parent = some (r, k')) :
    r = SYSERR ∧ KeepsPids k k' ∨ r ≠ SYSERR ∧ ∃ q, firstStopped k = some q ∧ GivesPid k k' r q := by
  rcases create_cases hc with ⟨hr, e⟩ | ⟨q, k1, hfs, hloop, ⟨hp, hp', hins⟩, ⟨ptr, esp, hk1⟩, hrdy⟩
  · rw [e]
    exact .inl ⟨hr, .of_eq rfl rfl rfl⟩
  have hcounter := getNextPid_counter h hloop
  have e := ready_eq hrdy
  obtain ⟨l, hset, hsorted, hsub⟩ := insert_sublist h.ordered hins
  have hmap : k'.pidMap = k1.pidMap := by rw [e]
  refine .inr ⟨?_, q, hfs, hcounter, ?_, ?_, ?_, ?_⟩
  · rw [hcounter]
    exact fun e => BitVec.lt_irrefl _ (e ▸ hlt)
  · rcases create_nextPid hc with hk | hk
    · -- the state of `q` has changed
      have hst : k'.state q = k.state q := by rw [hk]
      rw [e, firstStopped_spec hfs] at hst
      simp at hst
    · exact hk
  · rw [e, hk1]
    rfl
  · rw [hmap]
    exact hsorted.sublist hsub
  · rw [hmap]
    rintro ⟨q', v⟩ hx
    rcases (hset q' v).1 (hsub.subset hx) with ⟨rfl, rfl⟩ | ⟨-, hx⟩
    · exact .inl rfl
    · exact .inr hx

theorem Numbered.boot {m : Mem} {root idleproc : Word} (hb : Xeros.boot im m root idleproc = some s) :
    Numbered s.kernel := by
  obtain ⟨pid1, k1, pid2, k2, idle, hc1, hc2, -, hend⟩ := boot_cases hb
  have h0 : Numbered (init im m) := by
    refine ⟨List.Pairwise.nil, ?_, ?_, ?_⟩
    · intro q v hm
      cases hm
    · intro i
      change (0 : Word) < 1
      decide
    · intro i j _ hne
      exact absurd rfl hne
  have hlt : (init im m).nextPid < SYSERR := by
    change (1 : Word) < SYSERR
    decide
  have h1 : Numbered k1 ∧ k1.nextPid < SYSERR := by
    rcases create_gives h0 hlt hc1 with ⟨-, hk⟩ | ⟨-, q, -, hk⟩
    · refine ⟨h0.keep hk, ?_⟩
      rw [hk.nextPid]
      exact hlt
    · refine ⟨h0.give hk hlt, ?_⟩
      rw [hk.nextPid, hk.counter]
      change (1 + 1 : Word) < SYSERR
      decide
  have h2 : Numbered k2 := by
    rcases create_gives h1.1 h1.2 hc2 with ⟨-, hk⟩ | ⟨-, q, -, hk⟩
    · exact h1.1.keep hk
    · exact h1.1.give hk h1.2
  have h3 : Numbered { k2 with idle := some idle } := h2.keep (.of_eq rfl rfl rfl)
  have h4 := h3.keep (.of_moves (.next { k2 with idle := some idle }))
  rcases hend with ⟨-, rfl⟩ | ⟨q, -, rfl⟩
  · exact h4
  · rw [resume_eq]
    exact h4.keep (.of_eq rfl rfl rfl)

/-! ## The machine, with the pids it hands out -/

/-- The pid and the PCB of the process that an event creates. -/
def spawned (im : Image) (s : Sys) (e : Event) : Option (Word × Idx) :=
  match trapped s e with
  | some (k, p, some .CREATE) => do
    let (pid, _) ← create im k (k.arg p 0) (k.arg p 1) (k.pid p)
    if pid = SYSERR then none else (firstStopped k).map fun i => (pid, i)
  | _ => none

/-- The machine, its pid counter after boot, and the processes created since then. -/
structure Registry where
  sys : Sys
  first : Word
  given : List (Word × Idx)

def registryStep (im : Image) (e : Event) (s : Registry) : Option Registry := do
  let sys ← step im e s.sys
  some ⟨sys, s.first, s.given ++ (spawned im s.sys e).toList⟩

def RegistryInit (im : Image) (s : Registry) : Prop :=
  Booted im s.sys ∧ s.first = s.sys.kernel.nextPid ∧ s.given = []

/-- What an event does to the pids. -/
theorem step_pids (h : Numbered s.kernel) (hlt : s.kernel.nextPid < SYSERR) (ht : step im e s = some s') :
    spawned im s e = none ∧ KeepsPids s.kernel s'.kernel ∨
      ∃ r q, spawned im s e = some (r, q) ∧ GivesPid s.kernel s'.kernel r q := by
  rcases step_cases ht with ⟨g, rfl, rfl⟩ | ⟨codes, k, t, rfl, hl, rfl⟩ | ⟨k, p, r, htr, hd⟩
  · exact .inl ⟨rfl, .of_eq rfl rfl rfl⟩
  · rw [keyboard_lower_eq hl]
    exact .inl ⟨rfl, .of_eq rfl rfl rfl⟩
  have hk : KeepsPids s.kernel k := by
    rw [trapped_eq htr]
    exact .of_eq rfl rfl rfl
  have hnext : k.nextPid < SYSERR := by rwa [hk.nextPid]
  by_cases hr : r = some .CREATE
  · subst hr
    rw [dispatch_request_eq im k p (by simp)] at hd
    obtain ⟨⟨k1, tr⟩, hh, hd⟩ := Option.bind_eq_some_iff.1 hd
    obtain ⟨⟨pid, k2⟩, hc, hh⟩ := Option.bind_eq_some_iff.1 hh
    cases hh
    have hsp : spawned im s e = if pid = SYSERR then none else (firstStopped k).map fun i => (pid, i) := by
      unfold spawned
      rw [htr]
      simp only [hc]
      rfl
    have hirc : KeepsPids k2 (set_irc k2 p pid) := .of_eq rfl rfl rfl
    have hkeep : KeepsPids k2 s'.kernel := hirc.trans (.dispatch_next hd)
    rcases create_gives (h.keep hk) hnext hc with ⟨rfl, hk2⟩ | ⟨hne, q, hfs, hk2⟩
    · exact .inl ⟨by rw [hsp, if_pos rfl], hk.trans (hk2.trans hkeep)⟩
    · refine .inr ⟨pid, q, ?_, ?_⟩
      · rw [hsp, if_neg hne, hfs]
        rfl
      · refine ⟨hk2.counter.trans hk.nextPid, hkeep.nextPid.trans hk2.nextPid, ?_, hkeep.ordered hk2.ordered, ?_⟩
        · rw [hkeep.pid, hk2.pid, hk.pid]
        · intro x hx
          rcases hk2.entries x (hkeep.entries hk2.ordered x hx) with e | hx
          · exact .inl e
          · exact .inr (hk.entries h.ordered x hx)
  · have hsp : spawned im s e = none := by
      unfold spawned
      rw [htr]
      split
      · next heq =>
        cases heq
        exact absurd rfl hr
      · rfl
    refine .inl ⟨hsp, hk.trans ?_⟩
    rcases dispatch_request_effect hd with ⟨-, rfl⟩ | ⟨k1, k2, heff, hm, -, -, hend⟩
    · exact .of_eq rfl rfl rfl
    have h1 : KeepsPids k k1 := by
      rcases heff with ⟨-, rfl⟩ | ⟨x, rfl, -, heff⟩
      · exact .of_eq rfl rfl rfl
      · exact .effect (fun hx => hr (congrArg some hx)) heff
    refine h1.trans (.trans (.of_moves hm) ?_)
    rcases hend with rfl | ⟨q, rfl⟩
    · exact .of_eq rfl rfl rfl
    · rw [resume_eq]
      exact .of_eq rfl rfl rfl

/-! ## The invariant -/

/-- The pids handed out are the `given.length` numbers up to the counter, and
the map has them for the processes they were given to. -/
structure RegistryInv (s : Registry) : Prop where
  numbered : Numbered s.sys.kernel
  counter : s.sys.kernel.nextPid.toNat = s.first.toNat + s.given.length
  pids : s.given.map Prod.fst = (List.range s.given.length).map fun n => s.first + BitVec.ofNat 32 n
  found : ∀ q i v, (q, i) ∈ s.given → (q, v) ∈ s.sys.kernel.pidMap.entries → v = pcbIndex i

namespace RegistryInv
variable {s s' : Registry}

theorem below (h : RegistryInv s) {q : Word} {i : Idx} (hm : (q, i) ∈ s.given) : q < s.sys.kernel.nextPid := by
  have hq : q ∈ s.given.map Prod.fst := List.mem_map_of_mem hm
  rw [h.pids] at hq
  obtain ⟨n, hn, rfl⟩ := List.mem_map.1 hq
  have hlt := List.mem_range.1 hn
  have hc := h.counter
  have hnp := s.sys.kernel.nextPid.isLt
  rw [BitVec.lt_def, hc, BitVec.toNat_add, BitVec.toNat_ofNat]
  omega

theorem step (h : RegistryInv s) (hlt : s'.first.toNat + s'.given.length < SYSERR.toNat)
    (ht : registryStep im e s = some s') : RegistryInv s' := by
  obtain ⟨sys, hstep, ht⟩ := Option.bind_eq_some_iff.1 ht
  cases ht
  simp only [List.length_append] at hlt
  have hnext : s.sys.kernel.nextPid < SYSERR := by
    rw [BitVec.lt_def, h.counter]
    omega
  rcases step_pids h.numbered hnext hstep with ⟨hsp, hk⟩ | ⟨r, q, hsp, hk⟩
  · rw [hsp, Option.toList_none, List.append_nil]
    refine ⟨h.numbered.keep hk, ?_, h.pids, ?_⟩
    · rw [hk.nextPid]
      exact h.counter
    · intro q i v hm hx
      exact h.found q i v hm (hk.entries h.numbered.ordered _ hx)
  · have hc := h.counter
    have hr : r.toNat = s.first.toNat + s.given.length := by rw [hk.counter, hc]
    rw [hsp, Option.toList_some]
    refine ⟨h.numbered.give hk hnext, ?_, ?_, ?_⟩
    · rw [hk.nextPid, List.length_append, List.length_singleton, BitVec.toNat_add, hr]
      have hone : (1 : Word).toNat = 1 := rfl
      have hmax := SYSERR.isLt
      rw [hsp] at hlt
      simp only [Option.toList_some, List.length_singleton] at hlt
      change (s.first.toNat + s.given.length + 1) % 2 ^ 32 = s.first.toNat + (s.given.length + 1)
      omega
    · rw [List.map_append, h.pids, List.length_append, List.length_singleton, List.range_succ, List.map_append,
        List.map_singleton, List.map_singleton]
      congr 2
      bv_omega
    · intro q' i v hm hx
      rcases List.mem_append.1 hm with hm | hm
      · -- an older pid is not the new one
        rcases hk.entries _ hx with e | hx
        · have hb := h.below hm
          obtain ⟨rfl, -⟩ := Prod.mk.inj e
          rw [hk.counter] at hb
          exact absurd hb (BitVec.lt_irrefl _)
        · exact h.found q' i v hm hx
      · obtain ⟨rfl, rfl⟩ := Prod.mk.inj (List.mem_singleton.1 hm)
        rcases hk.entries _ hx with e | hx
        · exact congrArg Prod.snd e
        · have hb := h.numbered.keys _ v hx
          rw [hk.counter] at hb
          exact absurd hb (BitVec.lt_irrefl _)

end RegistryInv

/-- What holds of the pids that have been given since boot, until the counter wraps. -/
structure PidsFresh (s : Registry) : Prop where
  consecutive : s.given.map Prod.fst = (List.range s.given.length).map fun n => s.first + BitVec.ofNat 32 n
  found : ∀ q i v, (q, i) ∈ s.given → pidMapLookup s.sys.kernel q = some v → v = pcbIndex i
  distinct : ∀ i j, s.sys.kernel.pid i = s.sys.kernel.pid j → s.sys.kernel.pid i ≠ 0 → i = j

theorem RegistryInv.fresh {s : Registry} (h : RegistryInv s) : PidsFresh s :=
  ⟨h.pids, fun q i v hm hv => h.found q i v hm ((lookup_iff h.numbered.ordered q v).1 hv), h.numbered.distinct⟩

theorem RegistryInv.of_init {s : Registry} (hi : RegistryInit im s) : RegistryInv s := by
  obtain ⟨⟨m, root, idleproc, hb⟩, hfirst, hgiven⟩ := hi
  refine ⟨.boot hb, ?_, ?_, ?_⟩
  · rw [hfirst, hgiven]
    rfl
  · rw [hgiven]
    rfl
  · rw [hgiven]
    exact fun _ _ _ hm => absurd hm List.not_mem_nil

def registryBoot : Registry := ⟨sampleSys, sampleSys.kernel.nextPid, []⟩

theorem registryBoot_init : RegistryInit sampleImage registryBoot := ⟨sampleSys_booted, rfl, rfl⟩

end Xeros
