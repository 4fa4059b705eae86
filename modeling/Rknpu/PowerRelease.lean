import Rknpu.Power

namespace Rknpu.Power

variable (b : Board) (x : Nat → Reply)

/-- A call that runs with nobody else: what it has left to do, and how many calls of
`rknpu_power_off` it has made. -/
structure Call where
  state : State
  todo : List Stmt
  offs : Nat

def Stmt.isOff : Stmt → Bool
  | .putOff _ => true
  | _ => false

/-- One statement; `x n` is what the outside answers to the call number `n` of
`rknpu_power_off`. -/
def Call.next (c : Call) : Option Call :=
  match c.todo with
  | [] => none
  | a :: l => (exec b a (x c.offs) c.state).map fun r =>
    ⟨r.1, r.2 ++ l, if a.isOff then c.offs + 1 else c.offs⟩

def Call.run : Nat → Call → Option Call
  | 0, c => some c
  | n + 1, c => (c.next b x).bind (run n)

/-- The call comes back to its caller after finitely many statements, and then after
finitely many calls of `rknpu_power_off`. -/
def Call.Returns (c : Call) : Prop := ∃ n c', c.run b x n = some c' ∧ c'.todo = []

/-- The poll of `rknpu_power_off` gives up with the IOMMU still enabled. -/
def Board.staysOn (y : Reply) : Prop := b.multipleDomains ∧ y.ret ≠ 0

/-- `readx_poll_timeout`: the values read until the time is over, waiting for a false one. -/
def readxPollTimeout (values : List Bool) : Int := if values.all id then -etimedout else 0

/-- `rockchip_iommu_is_enabled` of the compat header: it tells whether there is a group. -/
def rockchipIommuIsEnabled (group : Bool) : Bool := group

/-- `rknpu_power_put`, `rknpu_power_put_delay` and, as `.put .work`,
`rknpu_power_off_delay_work`. -/
def Stmt.releases : Stmt → Prop
  | .put _ | .putDelay _ => True
  | _ => False

variable {b x} {c c' : Call}

theorem Call.Returns.of_empty (h : c.todo = []) : c.Returns b x := ⟨0, c, rfl, h⟩

theorem Call.returns_iff {v : Call} (h : c.next b x = some v) : c.Returns b x ↔ v.Returns b x := by
  constructor
  · rintro ⟨n, d, hd, he⟩
    cases n with
    | zero =>
      obtain rfl : c = d := by simpa [Call.run] using hd
      simp [Call.next, he] at h
    | succ n => exact ⟨n, d, by simpa [Call.run, h] using hd, he⟩
  · rintro ⟨n, d, hd, he⟩
    exact ⟨n + 1, d, by simpa [Call.run, h] using hd, he⟩

theorem powerOff_snd (y : Reply) (t : Rails) :
    (powerOff b y t).2 = if b.multipleDomains then y.ret else 0 := by
  unfold powerOff
  by_cases hm : b.multipleDomains <;> by_cases hy : y.ret = 0 <;> simp [hm, hy]

theorem powerOff_failed_iff (y : Reply) (t : Rails) :
    (powerOff b y t).2 ≠ 0 ↔ b.staysOn y := by
  rw [powerOff_snd]
  by_cases hm : b.multipleDomains <;> simp [Board.staysOn, hm]

theorem powerOff_on (b : Board) (y : Reply) :
    (powerOff b y (.on b)).1 = .off ↔ ¬b.staysOn y := by
  have hne : Rails.on b ≠ .off := fun h => by
    have := congrFun (congrArg Rails.enables h) .clks
    simp [Rails.on, Rails.off, Board.has] at this
  by_cases hy : b.staysOn y
  · rw [powerOff_failed ((powerOff_failed_iff y _).mpr hy)]
    exact ⟨fun h => absurd h hne, fun h => absurd hy h⟩
  · have h0 : (powerOff b y (.on b)).2 = 0 := by
      by_contra h
      exact hy ((powerOff_failed_iff y _).mp h)
    exact ⟨fun _ => hy, fun _ => powerOff_succeeded h0⟩

/-- Where a call stands that cannot leave the retries while power-off fails. -/
def Call.Looping (c : Call) : Prop :=
  c.state.delay = 0 ∧
    ((c.state.refcount = 1 ∧ c.state.lock = false ∧
        ∃ k, c.todo = [.put k] ∨ c.todo = [.putDelay k]) ∨
      (c.state.refcount = 1 ∧ ∃ k, c.todo = [.putDec k]) ∨
      (c.state.refcount = 0 ∧ ∃ k, c.todo = [.putOff k] ∨ ∃ ret, ret ≠ 0 ∧ c.todo = [.putInc k ret]) ∨
      (c.state.refcount = 1 ∧ ∃ k ret, ret ≠ 0 ∧ c.todo = [.putUnlock k ret]))

theorem Call.Looping.next (hx : ∀ n, b.staysOn (x n)) (hc : c.Looping) :
    ∃ c', c.next b x = some c' ∧ c'.Looping := by
  obtain ⟨s, l, n⟩ := c
  obtain ⟨hd, h⟩ := hc
  rcases h with ⟨hr, hl, k, rfl | rfl⟩ | ⟨hr, k, rfl⟩ | ⟨hr, k, rfl | ⟨ret, hret, rfl⟩⟩ |
    ⟨hr, k, ret, hret, rfl⟩ <;> dsimp only at hd hr
  · dsimp only at hl
    exact ⟨_, by simp [Call.next, exec, hl]; rfl, hd, .inr (.inl ⟨hr, k, rfl⟩)⟩
  · dsimp only at hl
    exact ⟨_, by simp [Call.next, exec, hd]; rfl, hd, .inl ⟨hr, hl, k, .inl rfl⟩⟩
  · exact ⟨_, by simp [Call.next, exec, hr]; rfl, hd,
      .inr (.inr (.inl ⟨by simp [decIfPositive], k, .inl rfl⟩))⟩
  · have hf : (powerOff b (x n) s.rails).2 ≠ 0 := (powerOff_failed_iff _ _).mpr (hx n)
    exact ⟨_, by simp [Call.next, exec, hf]; rfl, hd,
      .inr (.inr (.inl ⟨hr, k, .inr ⟨_, hf, rfl⟩⟩))⟩
  · exact ⟨_, by simp [Call.next, exec]; rfl, hd,
      .inr (.inr (.inr ⟨by simp [hr], k, ret, hret, rfl⟩))⟩
  · exact ⟨_, by simp [Call.next, exec, hret]; rfl, hd, .inl ⟨hr, rfl, _, .inr rfl⟩⟩

theorem Call.Looping.forever (hx : ∀ n, b.staysOn (x n)) (hc : c.Looping) :
    ¬c.Returns b x := by
  rintro ⟨n, d, hd, he⟩
  induction n generalizing c with
  | zero =>
    obtain rfl : c = d := by simpa [Call.run] using hd
    obtain ⟨-, h⟩ := hc
    rw [he] at h
    simp at h
  | succ n ih =>
    obtain ⟨c', hn, hc'⟩ := hc.next hx
    exact ih hc' (by simpa [Call.run, hn] using hd)

variable {s : State} {k : Release} {n : Nat}

theorem returns_putUnlock : Call.Returns b x ⟨s, [.putUnlock k 0], n⟩ :=
  (Call.returns_iff rfl).mpr (.of_empty rfl)

theorem returns_delayUnlock : Call.Returns b x ⟨s, [.delayUnlock], n⟩ :=
  (Call.returns_iff rfl).mpr (.of_empty rfl)

/-- With a delay the release is left to the delayed work, or the count is above one. -/
theorem returns_putDelay (hd : s.delay ≠ 0) (hl : s.lock = false) :
    Call.Returns b x ⟨s, [.putDelay k], n⟩ := by
  rw [Call.returns_iff (v := ⟨s, [.delayLock k], n⟩) (by simp [Call.next, exec, hd, Stmt.isOff]),
    Call.returns_iff (v := ⟨{ s with lock := true }, [.delayRead k], n⟩)
      (by simp [Call.next, exec, hl, Stmt.isOff])]
  by_cases hr : s.refcount = 1
  · rw [Call.returns_iff (v := ⟨{ s with lock := true }, [.delayQueue k], n⟩)
      (by simp [Call.next, exec, hr, Stmt.isOff])]
    exact (Call.returns_iff rfl).mpr returns_delayUnlock
  · rw [Call.returns_iff (v := ⟨{ s with lock := true }, [.delayDec k], n⟩)
      (by simp [Call.next, exec, hr, Stmt.isOff])]
    exact (Call.returns_iff rfl).mpr returns_delayUnlock

theorem returns_put_of_refcount (hr : s.refcount ≠ 1) (hl : s.lock = false) :
    Call.Returns b x ⟨s, [.put k], n⟩ := by
  have h1 : s.refcount - 1 ≠ 0 := by omega
  rw [Call.returns_iff (v := ⟨{ s with lock := true }, [.putDec k], n⟩)
    (by simp [Call.next, exec, hl, Stmt.isOff])]
  have hdec : Call.next b x ⟨{ s with lock := true }, [.putDec k], n⟩ = some ⟨{ s with
      lock := true
      refcount := decIfPositive s.refcount
      log := if 0 < s.refcount then s.log ++ [.drop k] else s.log }, [.putUnlock k 0], n⟩ := by
    simp [Call.next, exec, h1, Stmt.isOff]
  exact (Call.returns_iff hdec).mpr returns_putUnlock

/-- The last reference: `rknpu_power_off` runs, and if it fails the release is tried again. -/
theorem returns_put_last (hr : s.refcount = 1) (hl : s.lock = false) :
    ∃ s', s'.delay = s.delay ∧ s'.refcount = 1 ∧ s'.lock = false ∧
      (Call.Returns b x ⟨s, [.put k], n⟩ ↔
        ¬b.staysOn (x n) ∨ Call.Returns b x ⟨s', [.putDelay .followUp], n + 1⟩) := by
  let t := powerOff b (x n) s.rails
  let s₁ : State := { s with
    lock := true, refcount := 0, log := s.log ++ [.drop k], rails := t.1 }
  refine ⟨{ s₁ with refcount := 1, lock := false }, rfl, rfl, rfl, ?_⟩
  rw [Call.returns_iff (v := ⟨{ s with lock := true }, [.putDec k], n⟩)
      (by simp [Call.next, exec, hl, Stmt.isOff]),
    Call.returns_iff (v := ⟨{ s₁ with rails := s.rails }, [.putOff k], n⟩)
      (by simp [Call.next, exec, hr, Stmt.isOff, decIfPositive, s₁])]
  by_cases ht : t.2 = 0
  · rw [Call.returns_iff (v := ⟨s₁, [.putUnlock k 0], n + 1⟩)
      (by simp [Call.next, exec, Stmt.isOff, s₁, t, ht])]
    have hoff : ¬b.staysOn (x n) := fun h => (powerOff_failed_iff _ _).mpr h ht
    exact ⟨fun _ => .inl hoff, fun _ => returns_putUnlock⟩
  · rw [Call.returns_iff (v := ⟨s₁, [.putInc k t.2], n + 1⟩)
        (by simp [Call.next, exec, Stmt.isOff, s₁, t, ht]),
      Call.returns_iff (v := ⟨{ s₁ with refcount := 1 }, [.putUnlock k t.2], n + 1⟩)
        (by simp [Call.next, exec, Stmt.isOff, s₁]),
      Call.returns_iff (v := ⟨{ s₁ with refcount := 1, lock := false }, [.putDelay .followUp], n + 1⟩)
        (by simp [Call.next, exec, Stmt.isOff, ht])]
    have hon : b.staysOn (x n) := (powerOff_failed_iff _ _).mp ht
    exact ⟨.inr, fun h => h.resolve_left (not_not.mpr hon)⟩

/-- Every retry makes one call of `rknpu_power_off`, and the first that succeeds ends them. -/
theorem returns_put_of_succeeds (hr : s.refcount = 1) (hl : s.lock = false) (d : Nat)
    (hx : ¬b.staysOn (x (n + d))) : Call.Returns b x ⟨s, [.put k], n⟩ := by
  induction d generalizing s k n with
  | zero =>
    obtain ⟨s', -, -, -, h⟩ := returns_put_last (b := b) (x := x) (k := k) (n := n) hr hl
    exact h.mpr (.inl hx)
  | succ d ih =>
    obtain ⟨s', -, hr', hl', h⟩ := returns_put_last (b := b) (x := x) (k := k) (n := n) hr hl
    refine h.mpr (.inr ?_)
    by_cases hd : s'.delay = 0
    · rw [Call.returns_iff (v := ⟨s', [.put .followUp], n + 1⟩)
        (by simp [Call.next, exec, hd, Stmt.isOff])]
      exact ih hr' hl' (by rwa [Nat.add_right_comm])
    · exact returns_putDelay hd hl'

theorem returns_put_of_delay (hd : s.delay ≠ 0) (hl : s.lock = false) :
    Call.Returns b x ⟨s, [.put k], n⟩ := by
  by_cases hr : s.refcount = 1
  · obtain ⟨s', hd', hr', hl', h⟩ := returns_put_last (b := b) (x := x) (k := k) (n := n) hr hl
    exact h.mpr (.inr (returns_putDelay (hd' ▸ hd) hl'))
  · exact returns_put_of_refcount hr hl

/-- Releasing power comes back exactly if there is a delay, or the reference is not the
last one, or one of the calls of `rknpu_power_off` succeeds. -/
theorem release_returns_iff (b : Board) (x : Nat → Reply) (s : State) (a : Stmt)
    (ha : a.releases) (hl : s.lock = false) :
    Call.Returns b x ⟨s, [a], 0⟩ ↔ s.delay ≠ 0 ∨ s.refcount ≠ 1 ∨ ∃ n, ¬b.staysOn (x n) := by
  constructor
  · intro h
    by_contra hcon
    simp only [not_or, not_not, not_exists] at hcon
    obtain ⟨hd, hr, hx⟩ := hcon
    have hloop : Call.Looping ⟨s, [a], 0⟩ := by
      cases a <;> simp only [Stmt.releases] at ha
      · exact ⟨hd, .inl ⟨hr, hl, _, .inl rfl⟩⟩
      · exact ⟨hd, .inl ⟨hr, hl, _, .inr rfl⟩⟩
    exact hloop.forever hx h
  · have hput {k : Release} (h : s.delay ≠ 0 ∨ s.refcount ≠ 1 ∨ ∃ n, ¬b.staysOn (x n)) :
        Call.Returns b x ⟨s, [.put k], 0⟩ := by
      by_cases hd : s.delay = 0
      · by_cases hr : s.refcount = 1
        · obtain ⟨n, hn⟩ := (h.resolve_left (not_not.mpr hd)).resolve_left (not_not.mpr hr)
          exact returns_put_of_succeeds hr hl n (by rwa [Nat.zero_add])
        · exact returns_put_of_refcount hr hl
      · exact returns_put_of_delay hd hl
    intro h
    cases a with
    | put k => exact hput h
    | putDelay k =>
      by_cases hd : s.delay = 0
      · rw [Call.returns_iff (v := ⟨s, [.put k], 0⟩) (by simp [Call.next, exec, hd, Stmt.isOff])]
        exact hput h
      · exact returns_putDelay hd hl
    | _ => exact absurd ha not_false

def Board.multiple : Board := ⟨true, true, true, true, true, true, true⟩

/-- What the outside answers where the IOMMU is read `n` times before the poll gives up,
the device being in an IOMMU group. -/
def Reply.grouped (n : Nat) : Reply :=
  ⟨fun _ => 0, readxPollTimeout (List.replicate n (rockchipIommuIsEnabled true))⟩

def State.last (b : Board) (d : Nat) : State := { State.init with
  refcount := 1, delay := d, rails := .on b }

theorem grouped_staysOn (n : Nat) : Board.multiple.staysOn (.grouped n) :=
  ⟨rfl, by simp [Reply.grouped, readxPollTimeout, rockchipIommuIsEnabled, etimedout]⟩

theorem release_returns_after_two : Stmt.releases (.put .user) ∧
    Call.Returns .multiple (fun n => if n < 2 then .grouped 10 else ⟨fun _ => 0, 0⟩)
      ⟨.last .multiple 0, [.put .user], 0⟩ :=
  ⟨trivial, (release_returns_iff .multiple _ (.last .multiple 0) (.put .user) trivial rfl).mpr
    (.inr (.inr ⟨2, by simp [Board.staysOn]⟩))⟩

/-- Without a delay the last reference is put for ever on a device in an IOMMU group. -/
theorem release_forever : ¬∀ (b : Board) (x : Nat → Reply) (s : State) (a : Stmt),
    a.releases → s.lock = false → Call.Returns b x ⟨s, [a], 0⟩ := by
  intro h
  have hloop : Call.Looping ⟨.last .multiple 0, [.put .user], 0⟩ :=
    ⟨rfl, .inl ⟨rfl, rfl, _, .inl rfl⟩⟩
  exact hloop.forever (fun _ => grouped_staysOn 10)
    (h .multiple (fun _ => .grouped 10) (.last .multiple 0) (.put .user) trivial rfl)

end Rknpu.Power
