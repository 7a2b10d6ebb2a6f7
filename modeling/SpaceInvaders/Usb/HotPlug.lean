import SpaceInvaders.Usb.Enumeration

/-!
# Probing for a keyboard

`main` looks for a keyboard in two places, before the enumeration and after
every poll. Both loops have one shape: a first reading of `USB1_CTL_REG`, and
if neither line is high a counted number of further ones, of which the first
that shows a keyboard ends the loop. `Probe` is that shape, and its two
instances differ in the bound and in where they go.

The waits behind the two loops differ more. `waitInsert` tests every reading;
the loop for a removed keyboard reads three times and tests the third.
-/

namespace SpaceInvaders.Usb

open Machine

/-- A first reading and up to `limit` further ones. -/
structure Probe where
  first : Pc
  retry : Pc
  limit : Nat
  /-- Where a reading with a keyboard leads. -/
  found : Locals → Pc × Locals
  /-- Where the last reading leads if there is none. -/
  lost : Pc

/-- The blocks `first` and `retry` are the loop
`for(hot_plug_count = 0; hot_plug_count < limit; hot_plug_count++)`. -/
structure Probe.IsLoop (probe : Probe) : Prop where
  limit : 0 < probe.limit ∧ probe.limit < 256
  calls : ∀ l, block probe.first l = (usbRead USB1_CTL_REG).map .call ∧
    block probe.retry l = (usbRead USB1_CTL_REG).map .call
  first : ∀ l, next probe.first l =
    if devicePresent l.ioRead then probe.found l else (probe.retry, { l with hotPlugCount := 0#8 })
  retry : ∀ l, next probe.retry l =
    if devicePresent l.ioRead then probe.found l
    else if l.hotPlugCount + 1#8 < BitVec.ofNat 8 probe.limit then
      (probe.retry, { l with hotPlugCount := l.hotPlugCount + 1#8 })
    else (probe.lost, { l with hotPlugCount := l.hotPlugCount + 1#8 })

/-- Before the enumeration. -/
def detectProbe : Probe where
  first := .detect
  retry := .detectRetry
  limit := 5
  found l := (.submit (.enumeration .setAddress), l)
  lost := .waitInsert

/-- After a poll. -/
def plugProbe : Probe where
  first := .checkPlug
  retry := .plugRetry
  limit := 7
  found := beginPoll
  lost := .removed1

theorem detectProbe_isLoop : detectProbe.IsLoop :=
  ⟨by decide, fun _ => ⟨rfl, rfl⟩, fun _ => rfl, fun _ => rfl⟩

theorem plugProbe_isLoop : plugProbe.IsLoop :=
  ⟨by decide, fun _ => ⟨rfl, rfl⟩, fun _ => rfl, fun _ => rfl⟩

namespace Enumeration

variable {values : Nat → BitVec 16} {n i : Nat} {l : Locals} {probe : Probe}

/-- The first `i` readings of a probe that begins in step `n` show no keyboard. -/
def Absent (values : Nat → BitVec 16) (n i : Nat) : Prop :=
  ∀ k, k < i → devicePresent (values (n + 2 * k + 1)) = false

theorem Absent.succ (h : Absent values n (i + 1)) : Absent values n i :=
  fun k hk => h k (Nat.lt_succ_of_lt hk)

/-- A block that reads a memory word takes two steps. -/
theorem run_usbRead {pc : Pc} (hhost : (run values n).host = .enter (pc, l)) {a : BitVec 16}
    (hblock : block pc l = (usbRead a).map .call) :
    (run values (n + 2)).host = .enter (next pc { l with ioRead := values (n + 1) }) := by
  have htodo : (run values n).host.todo = [.call (.write HPI_ADDR a), .call (.read HPI_DATA)] := by
    rw [hhost]
    exact hblock
  have hpc : (run values n).host.pc = pc := congrArg Host.pc hhost
  have hlocals : (run values n).host.locals = l := congrArg Host.locals hhost
  have haddress : (run values (n + 1)).host = ⟨pc, [.call (.read HPI_DATA)], l⟩ := by
    change (device.hostStep (values n) (run values n)).host = _
    simp only [Device.hostStep, htodo, Host.step, hpc, hlocals]
    rfl
  change (device.hostStep (values (n + 1)) (run values (n + 1))).host = _
  simp only [Device.hostStep, haddress, Host.step]
  rfl

/-- The counter after some readings without a keyboard. -/
theorem run_retry (hloop : probe.IsLoop) (hhost : (run values n).host = .enter (probe.first, l))
    (hi : i < probe.limit + 1) (habsent : Absent values n (i + 1)) :
    (run values (n + 2 * i + 2)).host =
      if i < probe.limit then .enter (probe.retry,
        { l with ioRead := values (n + 2 * i + 1), hotPlugCount := BitVec.ofNat 8 i })
      else .enter (probe.lost,
        { l with ioRead := values (n + 2 * i + 1), hotPlugCount := BitVec.ofNat 8 i }) := by
  have hlimit := hloop.limit
  have hlast : ¬devicePresent (values (n + 2 * i + 1)) = true :=
    Bool.not_eq_true _ ▸ habsent i (Nat.lt_succ_self i)
  induction i with
  | zero =>
      rw [run_usbRead hhost (hloop.calls l).1, hloop.first, if_neg hlast, if_pos hlimit.1]
  | succ i ih =>
      have hcount : BitVec.ofNat 8 i + 1#8 = BitVec.ofNat 8 (i + 1) := (BitVec.ofNat_add i 1).symm
      have hprev : (run values (n + 2 * (i + 1))).host = .enter (probe.retry,
          { l with ioRead := values (n + 2 * i + 1), hotPlugCount := BitVec.ofNat 8 i }) := by
        have hretry := ih (by omega) habsent.succ (Bool.not_eq_true _ ▸ habsent i (by omega))
        rwa [if_pos (by omega)] at hretry
      rw [run_usbRead hprev (hloop.calls _).2, hloop.retry, if_neg hlast]
      simp only [hcount, BitVec.lt_def, BitVec.toNat_ofNat]
      rw [Nat.mod_eq_of_lt (by omega), Nat.mod_eq_of_lt (by omega)]
      split <;> rfl

/-- How a probe that begins in step `n` ends: after the first reading that shows
a keyboard, or after the last one. Of the locals it changes two. -/
structure Decides (probe : Probe) (values : Nat → BitVec 16) (n : Nat) (l : Locals) : Prop where
  found : ∀ i, i ≤ probe.limit → Absent values n i →
    devicePresent (values (n + 2 * i + 1)) = true →
    ∃ count, (run values (n + 2 * i + 2)).host =
      .enter (probe.found { l with ioRead := values (n + 2 * i + 1), hotPlugCount := count })
  lost : Absent values n (probe.limit + 1) →
    (run values (n + 2 * probe.limit + 2)).host = .enter (probe.lost,
      { l with
        ioRead := values (n + 2 * probe.limit + 1)
        hotPlugCount := BitVec.ofNat 8 probe.limit })

theorem Decides.of_isLoop (hloop : probe.IsLoop)
    (hhost : (run values n).host = .enter (probe.first, l)) : Decides probe values n l where
  found i hi habsent hpresent := by
    cases i with
    | zero =>
        refine ⟨l.hotPlugCount, ?_⟩
        rw [run_usbRead hhost (hloop.calls l).1, hloop.first, if_pos hpresent]
    | succ i =>
        refine ⟨BitVec.ofNat 8 i, ?_⟩
        have hretry := run_retry hloop hhost (Nat.lt_succ_of_lt hi) habsent
        rw [if_pos (Nat.lt_of_succ_le hi)] at hretry
        rw [show n + 2 * (i + 1) + 2 = n + 2 * i + 2 + 2 from rfl,
          run_usbRead hretry (hloop.calls _).2, hloop.retry]
        exact congrArg Host.enter (if_pos hpresent)
  lost habsent := by
    rw [run_retry hloop hhost (Nat.lt_succ_self _) habsent, if_neg (Nat.lt_irrefl _)]

/-- A wait for a keyboard stays at its first block, which it reaches every
`period` steps, until the reading at the end of a round shows a keyboard. -/
structure Waits (head : Pc) (period : Nat) (values : Nat → BitVec 16) (n : Nat) : Prop where
  stays : ∀ i, (∀ k, k < i → devicePresent (values (n + period * k + (period - 1))) = false) →
    ∃ l, (run values (n + period * i)).host = .enter (head, l)
  restarts : ∀ i, (∀ k, k < i → devicePresent (values (n + period * k + (period - 1))) = false) →
    devicePresent (values (n + period * i + (period - 1))) = true →
    AtHotPlug values (n + period * (i + 1))

/-- One round of a wait decides. -/
theorem Waits.of_round {head : Pc} {period : Nat}
    (round : ∀ m l, (run values m).host = .enter (head, l) →
      ∃ l', (run values (m + period)).host =
        .enter (if devicePresent (values (m + (period - 1))) then .resetMailbox else head, l'))
    (hhost : (run values n).host = .enter (head, l)) : Waits head period values n := by
  have hstays : ∀ i,
      (∀ k, k < i → devicePresent (values (n + period * k + (period - 1))) = false) →
      ∃ l, (run values (n + period * i)).host = .enter (head, l) := by
    intro i
    induction i with
    | zero => exact fun _ => ⟨l, hhost⟩
    | succ i ih =>
        intro habsent
        obtain ⟨l, hl⟩ := ih fun k hk => habsent k (Nat.lt_succ_of_lt hk)
        obtain ⟨l', hl'⟩ := round _ l hl
        rw [habsent i (Nat.lt_succ_self i), if_neg Bool.false_ne_true, Nat.add_assoc,
          ← Nat.mul_succ] at hl'
        exact ⟨l', hl'⟩
  refine ⟨hstays, fun i habsent hpresent => ?_⟩
  obtain ⟨l, hl⟩ := hstays i habsent
  obtain ⟨l', hl'⟩ := round _ l hl
  rw [hpresent, if_pos rfl, Nat.add_assoc, ← Nat.mul_succ] at hl'
  rw [AtHotPlug, hl']
  rfl

theorem waitInsert_round (m : Nat) (l : Locals)
    (hhost : (run values m).host = .enter (.waitInsert, l)) :
    ∃ l', (run values (m + 2)).host =
      .enter (if devicePresent (values (m + 1)) then .resetMailbox else .waitInsert, l') := by
  refine ⟨{ l with ioRead := values (m + 1) }, ?_⟩
  rw [run_usbRead hhost rfl]
  exact congrArg Host.enter (apply_ite (·, _) _ _ _).symm

/-- The readings of `removed1` and `removed2` are overwritten. -/
theorem removed_round (m : Nat) (l : Locals)
    (hhost : (run values m).host = .enter (.removed1, l)) :
    ∃ l', (run values (m + 6)).host =
      .enter (if devicePresent (values (m + 5)) then .resetMailbox else .removed1, l') := by
  have hsecond := run_usbRead hhost rfl
  have hthird := run_usbRead hsecond rfl
  refine ⟨{ l with ioRead := values (m + 5) }, ?_⟩
  rw [run_usbRead hthird rfl]
  exact congrArg Host.enter (apply_ite (·, _) _ _ _).symm

/-- How the readings of `USB1_CTL_REG` steer `main`. -/
structure FollowsPlug (values : Nat → BitVec 16) : Prop where
  /-- Before the enumeration six readings decide. -/
  detect : ∀ n l, (run values n).host = .enter (.detect, l) → Decides detectProbe values n l
  /-- After a poll eight do. -/
  plug : ∀ n l, (run values n).host = .enter (.checkPlug, l) → Decides plugProbe values n l
  /-- A host that has found none waits for any reading with a keyboard. -/
  insertion : ∀ n l, (run values n).host = .enter (.waitInsert, l) → Waits .waitInsert 2 values n
  /-- A host that has lost it waits for a third reading with a keyboard. -/
  removal : ∀ n l, (run values n).host = .enter (.removed1, l) → Waits .removed1 6 values n

/-- Whatever the chip answers, a keyboard is found by its first reading, and
missed only after six, or eight, readings in a row without one. -/
theorem followsPlug (values : Nat → BitVec 16) : FollowsPlug values where
  detect _ _ hhost := .of_isLoop detectProbe_isLoop hhost
  plug _ _ hhost := .of_isLoop plugProbe_isLoop hhost
  insertion _ _ hhost := .of_round waitInsert_round hhost
  removal _ _ hhost := .of_round removed_round hhost

end Enumeration

end SpaceInvaders.Usb
