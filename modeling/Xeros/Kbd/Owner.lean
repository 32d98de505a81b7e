import Xeros.Kbd.Readers
import Xeros.Kbd.Stream
import Xeros.Model.Syscall
/-!
# The driver and the process it serves

The keyboard interrupt acts on the process that has the device open, whatever
that process is doing. `DriverSafe` says that it acts on it only while it is
blocked on a read, and completes each read once. That holds in every run of
the machine in which no interrupt copies characters to a process that is not
reading (`driver_safe`).
-/

namespace Xeros

open Runs

/-! ## The machine, watched -/

/-- What is done to `p`; a store goes into its buffer. -/
def Touch.On (p : Idx) : Touch → Prop
  | .store _ _ => True
  | .irc q _ => q = p
  | .ready q => q = p

/-- A keyboard interrupt: who has the device open, in which state, and what the
driver does to it. -/
structure Interrupt where
  owner : Option Idx
  state : Option PState
  touches : List Touch

def interrupt (k : Kernel) (codes : List Byte) : Interrupt :=
  { owner := k.kbd.ps.pcb
    state := k.kbd.ps.pcb.map k.state
    touches := ((keyboard_lower k codes).map (·.2)).getD [] }

/-- The machine with its interrupts, latest first, and for each process the
number of times the driver has readied it since its last read that blocked. -/
structure Watched where
  sys : Sys
  interrupts : List Interrupt
  completions : Idx → Nat

/-- The process whose `READ` blocks at this event. -/
def blockedReader (im : Image) (s : Sys) : Event → Option Idx
  | .syscall esp =>
    match s.cur with
    | some p =>
      let (k, n) := syscall_entry s.kernel p esp
      if Request.all[n.toNat]? = some .READ then
        match handle_request im k p .READ with
        | some (_, none) => some p
        | _ => none
      else none
    | none => none
  | _ => none

def watchedStep (im : Image) (e : Event) (s : Watched) : Option Watched := do
  let sys ← step im e s.sys
  match e with
  | .keyboard codes =>
    let i := interrupt s.sys.kernel codes
    some {
      sys := sys
      interrupts := i :: s.interrupts
      completions := fun p => s.completions p + i.touches.count (.ready p) }
  | e =>
    some { s with
      sys := sys
      completions :=
        match blockedReader im s.sys e with
        | some p => Function.update s.completions p 0
        | none => s.completions }

/-- The machine after `initproc`. -/
def WatchedInit (im : Image) (s : Watched) : Prop :=
  ∃ m root idleproc, boot im m root idleproc = some s.sys ∧ s.interrupts = [] ∧ s.completions = fun _ => 0

structure DriverSafe (s : Watched) : Prop where
  /-- Only a process that is blocked on a read is touched. -/
  blocked : ∀ i ∈ s.interrupts, i.touches ≠ [] →
    ∃ p, i.owner = some p ∧ i.state = some .READING ∧ ∀ t ∈ i.touches, t.On p
  /-- A read is completed at most once. -/
  once : ∀ p, s.completions p ≤ 1

/-! ## One interrupt -/

section
variable {k k' : Kernel} {codes : List Byte} {t : List Touch}

/-- What an interrupt does, it does to the owner, and it readies it at most once. -/
theorem touches_owner (h : keyboard_lower k codes = some (k', t)) (ht : t ≠ []) : ∃ p, k.kbd.ps.pcb = some p ∧
    k.kbd.ps.ch_read < k.kbd.ps.buf_len ∧ (keyboard_fill k.kbd codes).size ≠ 0 ∧ (∀ e ∈ t, e.On p) ∧
    ((∀ q, t.count (.ready q) = 0) ∨ (k'.state p = .READY ∧ t.count (.ready p) = 1 ∧
      ∀ q, q ≠ p → t.count (.ready q) = 0)) := by
  rcases keyboard_lower_cases h with ⟨-, -, rfl⟩ | ⟨hlt, p, k1, rc, t1, xs, ended, rest, hp, hc, hend⟩
  · exact absurd rfl ht
  have hon : ∀ e ∈ t1, e.On p := by
    intro e he
    have hcopies := hc.touches e he
    cases e with
    | store a c => trivial
    | irc q v => exact hcopies
    | ready q => exact hcopies.elim
  have hnone : ∀ q, t1.count (.ready q) = 0 := by
    intro q
    apply List.count_eq_zero.2
    exact fun hm => hc.touches _ hm
  have hsize : (filled k codes).kbd.ring ≠ [] → (keyboard_fill k.kbd codes).size ≠ 0 := by
    intro hr h0
    apply hr
    rw [filled, Kbd.ring, h0]
    rfl
  rcases hend with ⟨-, -, rfl⟩ | ⟨hrc, hr, rfl⟩
  · exact ⟨p, hp, hlt, hsize fun hring => ht (hc.quiet.2 hring), hon, .inl hnone⟩
  · refine ⟨p, hp, hlt, hsize fun hring => ?_, ?_, .inr ⟨?_, ?_, ?_⟩⟩
    · rcases hc.outcome with ⟨hb, -⟩ | ⟨-, hne, -⟩
      · rw [hrc] at hb
        cases hb
      · have htaken := hc.taken
        rw [hring] at htaken
        apply hne
        simpa using (List.append_eq_nil_iff.1 htaken.symm).1
    · intro e he
      rcases List.mem_append.1 he with he | he
      · exact hon e he
      · rw [List.mem_singleton.1 he]
        rfl
    · rw [ready_eq hr]
      exact Function.update_self ..
    · rw [List.count_append, hnone]
      simp
    · intro q hq
      rw [List.count_append, hnone, List.count_singleton]
      have hne : ¬Touch.ready p = Touch.ready q := by
        rintro ⟨⟩
        exact hq rfl
      simpa using hne

/-- An interrupt meets the condition exactly when it touches nobody but a
process that is blocked on a read. -/
theorem readerWaits_iff (h : keyboard_lower k codes = some (k', t)) :
    ReaderWaits k codes ↔ (t ≠ [] → ∃ p, k.kbd.ps.pcb = some p ∧ k.state p = .READING) := by
  constructor
  · intro hok ht
    obtain ⟨p, hp, hlt, hsize, -⟩ := touches_owner h ht
    exact ⟨p, hp, hok hlt hsize p hp⟩
  · intro hread hlt hsize p hp
    rcases keyboard_lower_cases h with ⟨hge, -⟩ | ⟨-, q, k1, rc, t1, xs, ended, rest, hq, hc, hend⟩
    · exact absurd hlt hge
    have ht1 : t1 ≠ [] := by
      intro h0
      have hlen := congrArg List.length (hc.quiet.1 h0)
      rw [Kbd.length_ring] at hlen
      exact hsize hlen
    have ht : t ≠ [] := by
      rcases hend with ⟨-, -, rfl⟩ | ⟨-, -, rfl⟩
      · exact ht1
      · simp
    obtain ⟨r, hr, hst⟩ := hread ht
    rw [hp] at hr
    cases hr
    exact hst

end

/-! ## One step -/

/-- A step brings no new reader but the process whose `READ` blocks. -/
theorem step_reads {im : Image} {e : Event} {s s' : Sys} (h : step im e s = some s') (i : Idx)
    (hi : s'.kernel.state i = .READING) : s.kernel.state i = .READING ∨ blockedReader im s e = some i := by
  obtain ⟨p, hp, h⟩ := Option.bind_eq_some_iff.1 h
  cases e with
  | user f =>
    cases h
    exact .inl hi
  | keyboard codes =>
    obtain ⟨⟨k', t⟩, hl, h⟩ := Option.bind_eq_some_iff.1 h
    cases h
    rcases keyboard_lower_state hl i with e | e
    · exact .inl (e ▸ hi)
    · have hi' : k'.state i = .READING := hi
      rw [e] at hi'
      cases hi'
  | timer esp eax =>
    obtain ⟨⟨k1, tr⟩, hh, h⟩ := Option.bind_eq_some_iff.1 h
    have hi1 := NoNewReader.dispatch_next h i hi
    rcases NoNewReader.handle_request hh i hi1 with h' | ⟨-, hr, -⟩
    · exact .inl h'
    · cases hr
  | syscall esp =>
    simp only [] at h
    set k := (syscall_entry s.kernel p esp).1 with hk
    set n := (syscall_entry s.kernel p esp).2 with hn
    unfold dispatch_request at h
    split at h
    · cases h
      exact .inl hi
    · next r hne hr =>
      obtain ⟨⟨k1, tr⟩, hh, h⟩ := Option.bind_eq_some_iff.1 h
      have hi1 := NoNewReader.dispatch_next h i hi
      rcases NoNewReader.handle_request hh i hi1 with h' | ⟨rfl, rfl, rfl⟩
      · exact .inl h'
      · right
        simp only [blockedReader, hp]
        rw [← hn, if_pos hr, ← hk, hh]
    · exact .inl (NoNewReader.dispatch_next h i hi)

/-! ## Runs -/

/-- An interrupt copies nothing, or copies to a process that is blocked on a read. -/
def OwnerWaitsAt (s : Watched) : Event → Prop
  | .keyboard codes => ReaderWaits s.sys.kernel codes
  | _ => True

instance (s : Watched) : DecidablePred (OwnerWaitsAt s)
  | .keyboard codes => inferInstanceAs (Decidable (ReaderWaits s.sys.kernel codes))
  | .user _ => inferInstanceAs (Decidable True)
  | .syscall _ => inferInstanceAs (Decidable True)
  | .timer .. => inferInstanceAs (Decidable True)

/-- A process that is blocked on a read has not been readied by the driver since
the read began. -/
structure WatchedInv (s : Watched) : Prop extends DriverSafe s where
  pending : ∀ p, s.sys.kernel.state p = .READING → s.completions p = 0

namespace WatchedInv
variable {im : Image} {s s' : Watched}

theorem keyboard {codes : List Byte} (h : WatchedInv s) (hok : ReaderWaits s.sys.kernel codes)
    (ht : watchedStep im (.keyboard codes) s = some s') : WatchedInv s' := by
  obtain ⟨sys, hstep, ht⟩ := Option.bind_eq_some_iff.1 ht
  cases ht
  have hreads := step_reads hstep
  obtain ⟨q, -, hstep⟩ := Option.bind_eq_some_iff.1 hstep
  obtain ⟨⟨k', t⟩, hl, hstep⟩ := Option.bind_eq_some_iff.1 hstep
  cases hstep
  have htouch : (interrupt s.sys.kernel codes).touches = t := by rw [interrupt, hl]; rfl
  by_cases hnil : t = []
  · rw [hnil] at htouch
    refine ⟨⟨fun i hi ht => ?_, fun p => ?_⟩, fun p hp => ?_⟩
    · rcases List.mem_cons.1 hi with rfl | hi
      · exact absurd htouch ht
      · exact h.blocked i hi ht
    · simpa [htouch] using h.once p
    · rcases hreads p hp with hp | hp
      · simpa [htouch] using h.pending p hp
      · cases hp
  · obtain ⟨p, hp, hlt, hsize, hon, hcount⟩ := touches_owner hl hnil
    have hread := hok hlt hsize p hp
    refine ⟨⟨fun i hi ht => ?_, fun r => ?_⟩, fun r hr => ?_⟩
    · rcases List.mem_cons.1 hi with rfl | hi
      · refine ⟨p, hp, ?_, ?_⟩
        · rw [interrupt, hp, ← hread]
          rfl
        · rw [htouch]
          exact hon
      · exact h.blocked i hi ht
    · simp only [htouch]
      rcases hcount with hnone | ⟨-, hone, hnone⟩
      · rw [hnone r]
        exact h.once r
      · by_cases hrp : r = p
        · subst hrp
          rw [hone, h.pending r hread]
        · rw [hnone r hrp]
          exact h.once r
    · simp only [htouch]
      rcases hreads r hr with hr' | hr'
      · rcases hcount with hnone | ⟨hready, -, hnone⟩
        · rw [hnone r]
          exact h.pending r hr'
        · have hrp : r ≠ p := by
            rintro rfl
            have hr2 : k'.state r = .READING := hr
            rw [hready] at hr2
            cases hr2
          rw [hnone r hrp]
          exact h.pending r hr'
      · cases hr'

theorem other {e : Event} (h : WatchedInv s) (he : ∀ codes, e ≠ .keyboard codes)
    (ht : watchedStep im e s = some s') : WatchedInv s' := by
  obtain ⟨sys, hstep, ht⟩ := Option.bind_eq_some_iff.1 ht
  have hreads := step_reads hstep
  set completions : Idx → Nat :=
    match blockedReader im s.sys e with
    | some p => Function.update s.completions p 0
    | none => s.completions with hcomp
  obtain rfl : s' = { s with sys := sys, completions := completions } := by
    cases e with
    | keyboard codes => exact absurd rfl (he codes)
    | user f => exact (Option.some.inj ht).symm
    | syscall esp => exact (Option.some.inj ht).symm
    | timer esp eax => exact (Option.some.inj ht).symm
  have hle : ∀ p, completions p ≤ s.completions p ∧ (blockedReader im s.sys e = some p → completions p = 0) := by
    intro p
    rw [hcomp]
    cases hb : blockedReader im s.sys e with
    | none => exact ⟨Nat.le_refl _, fun h => by cases h⟩
    | some q =>
      by_cases hpq : p = q
      · subst hpq
        simp
      · simp only [Function.update_of_ne hpq]
        exact ⟨Nat.le_refl _, fun h => absurd (Option.some.inj h).symm hpq⟩
  refine ⟨⟨h.blocked, fun p => Nat.le_trans (hle p).1 (h.once p)⟩, fun p hp => ?_⟩
  rcases hreads p hp with hp | hp
  · exact Nat.le_zero.1 (h.pending p hp ▸ (hle p).1)
  · exact (hle p).2 hp

theorem step {e : Event} (h : WatchedInv s) (hok : OwnerWaitsAt s e) (ht : watchedStep im e s = some s') :
    WatchedInv s' := by
  cases e with
  | keyboard codes => exact h.keyboard hok ht
  | user f => exact h.other (by simp) ht
  | syscall esp => exact h.other (by simp) ht
  | timer esp eax => exact h.other (by simp) ht

end WatchedInv

/-! ## Results -/

/-- In every run in which no interrupt copies to a process that is not reading,
the driver only ever acts on readers, and completes each read once. -/
theorem driver_safe {im : Image} {s : Watched} (hs : Reach (watchedStep im) (WatchedInit im) OwnerWaitsAt s) :
    DriverSafe s := by
  have h : WatchedInv s := by
    refine hs.inv WatchedInv (fun s h => ?_) fun _ _ _ h hok ht => h.step hok ht
    obtain ⟨m, root, idleproc, -, hi, hc⟩ := h
    refine ⟨⟨fun i hm => ?_, fun p => ?_⟩, fun p _ => ?_⟩
    · rw [hi] at hm
      cases hm
    · rw [hc]
      exact Nat.zero_le _
    · rw [hc]
  exact h.toDriverSafe

/-- `initproc` has run and nothing has happened yet. -/
def watchedBoot : Watched := ⟨sampleSys, [], fun _ => 0⟩

theorem watchedBoot_init : WatchedInit sampleImage watchedBoot :=
  ⟨_, _, _, (Option.some_get sampleBoot).symm, rfl, rfl⟩

/-- Process 0 reads two characters; both interrupts come while it waits. -/
theorem driver_safe_2_keys : ∃ s, Reach (watchedStep sampleImage) (WatchedInit sampleImage) OwnerWaitsAt s ∧
    (s.interrupts.length = 2 ∧ s.completions 0 = 1) ∧ DriverSafe s := by
  have h0 : Reach (watchedStep sampleImage) (WatchedInit sampleImage) OwnerWaitsAt watchedBoot := .start watchedBoot_init
  obtain ⟨s, hs, ht⟩ := h0.exec_ok (fun s e => decide (OwnerWaitsAt s e)) (fun _ _ => of_decide_eq_true)
    (call 0x10000 .OPEN [0] ++ call 0x10000 .READ [0, 0x3000, 2] ++ [.keyboard [keyA], .keyboard [keyEnter]])
    (fun s => decide (s.interrupts.length = 2 ∧ s.completions 0 = 1)) (by decide +kernel)
  exact ⟨s, hs, of_decide_eq_true ht, driver_safe hs⟩

/-- A read of three characters ends with the line; the next key is stored into
the buffer of the process, which runs by then. -/
theorem driver_unsafe : ¬∀ im s, Reach (watchedStep im) (WatchedInit im) Any s → DriverSafe s := by
  intro hall
  have h0 : Reach (watchedStep sampleImage) (WatchedInit sampleImage) Any watchedBoot := .start watchedBoot_init
  obtain ⟨s, hs, ht⟩ := h0.exec_any
    (call 0x10000 .OPEN [0] ++ call 0x10000 .READ [0, 0x3000, 3] ++ [.keyboard [keyEnter]] ++ call 0x11000 .YIELD [] ++
      [.keyboard [keyA]])
    (fun s => decide (∃ i ∈ s.interrupts, i.touches ≠ [] ∧ i.state = some .RUNNING)) (by decide +kernel)
  obtain ⟨i, hi, ht, hst⟩ := of_decide_eq_true ht
  obtain ⟨p, -, hread, -⟩ := (hall sampleImage s hs).blocked i hi ht
  rw [hst] at hread
  cases hread

end Xeros
