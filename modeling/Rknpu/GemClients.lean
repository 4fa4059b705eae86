import Rknpu.Gem

namespace Rknpu

namespace Gem

open Interleaving

variable {s s' : State} {a : Stmt} {x : Reply} {p : List Stmt} {B R : Multiset Stmt}
  {G : Guard State Stmt Reply Occurrence} {C : Conf State Stmt} {o : Nat}

theorem exec_accesses (h : exec a x s = some (s', p)) : s'.accesses = s.accesses ∨
    ∃ c v u, a = .use c v u ∧ s'.accesses = ⟨c, v, s.allowed c v⟩ :: s.accesses := by
  cases a with
  | use c v u =>
    have hacc : (s.access c v).accesses = s.accesses ∨
        (s.access c v).accesses = ⟨c, v, s.allowed c v⟩ :: s.accesses := by
      rw [State.access]
      split
      · exact .inl rfl
      · exact .inr rfl
    have hsame : s'.accesses = (s.access c v).accesses := by
      cases u <;> simp only [exec, Option.some.injEq] at h
      case jobGet | jobPut =>
        cases hl : (s.access c v).locate v <;> rw [hl] at h <;> cases h <;> rfl
      all_goals cases h; rfl
    rw [hsame]
    exact hacc.imp_right fun h => ⟨c, v, u, rfl, h⟩
  | _ =>
    simp only [exec, Option.some.injEq] at h
    repeat' split at h
    all_goals
      cases h
      try exact .inl rfl

/-- Every value that is used as an address is that of an object that is there, and of which
the client has a handle at that moment; NULL is an error. -/
theorem accesses_allowed (C : Conf State Stmt) (hC : Reach machine addressGuard State.init C) :
    (∀ u ∈ C.shared.accesses, u.allowed) ∧
      ∀ c x, .syncCheck c 0 ∈ C.pending →
        exec (.syncCheck c 0) x C.shared = some (C.shared, [.returned c (-einval)]) := by
  refine ⟨?_, fun _ _ _ => rfl⟩
  refine hC.invariant_with Counted (fun s _ => ∀ u ∈ s.accesses, u.allowed)
    (fun _ => Counted.reach) (by simp [State.init]) ?_ ?_
  · intro s R a x s' p hJ hI _ h u hu
    rcases exec_accesses h with he | ⟨c, v, k, rfl, he⟩ <;> rw [he] at hu
    · exact hI u hu
    · rcases List.mem_cons.mp hu with rfl | hu
      · exact hJ.used (Multiset.mem_cons_self _ R) rfl
      · exact hI u hu
  · intro s R e s' p _ hI _ h
    cases h
    exact hI

def createRun : List (Label Reply Occurrence) :=
  [Label.env (Occurrence.create 1 0), .run 0 ⟨0, 0, 0⟩, .run 0 ⟨0, 0, 0x1000⟩, .run 0 ⟨0, 1, 0⟩] ++
    List.replicate 5 (Label.run 0 ⟨0, 0, 0⟩)

def accessRun : List (Label Reply Occurrence) :=
  createRun ++
    [Label.env (Occurrence.sync 1 0x1000), .run 1 ⟨0, 0, 0⟩, .run 1 ⟨1, 0, 0⟩, .run 1 ⟨0, 0, 0⟩,
    .run 1 ⟨0, 0, 0⟩, .env (.submit 1 0x1000), .run 2 ⟨0, 0, 0⟩, .run 2 ⟨1, 0, 0⟩,
    .run 2 ⟨0, 0, 0⟩, .run 2 ⟨0, 0, 0⟩, .run 2 ⟨0, 0, 0⟩, .env (.sync 1 0)]

def addressTest (C : Conf State Stmt) : Label Reply Occurrence → Bool
  | .run i _ => match C.threads[i]? with
    | some (.handleDelete _ _ :: _) => false
    | _ => true
  | .env (.sync c v) => v == 0 || C.shared.allowed c v
  | .env (.submit c v) => C.shared.allowed c v
  | .env _ => true

theorem addressTest_run {C : Conf State Stmt} {i : Nat} {x : Reply} {a : Stmt} {k : List Stmt}
    (hi : C.threads[i]? = some (a :: k)) (h : addressTest C (.run i x)) :
    addressGuard.run C.shared C.pending a x := by
  rintro c n o rfl
  simp only [addressTest, hi] at h
  cases h

theorem addressTest_env {C : Conf State Stmt} {e : Occurrence} (h : addressTest C (.env e)) :
    addressGuard.env C.shared C.pending e := by
  cases e with
  | sync c v =>
    rw [addressTest, Bool.or_eq_true, beq_iff_eq] at h
    exact h
  | submit c v => exact h
  | _ => trivial

theorem accesses_allowed_accessRun : ∃ C : Conf State Stmt, C.shared.accesses.length = 6 ∧
    (∀ u ∈ C.shared.accesses, u.allowed) ∧
      exec (.syncCheck 1 0) ⟨0, 0, 0⟩ C.shared = some (C.shared, [.returned 1 (-einval)]) := by
  obtain ⟨C, hC, ht⟩ := Reach.exists_of_checked machine addressGuard State.init accessRun addressTest
    (fun C => C.shared.accesses.length == 6 && decide (.syncCheck 1 0 ∈ C.threads.flatten))
    (fun _ _ _ _ _ => addressTest_run) (fun _ _ => addressTest_env) (by decide +kernel)
  rw [Bool.and_eq_true, beq_iff_eq, decide_eq_true_eq] at ht
  obtain ⟨hall, hnull⟩ := accesses_allowed C hC
  exact ⟨C, ht.1, hall, hnull 1 ⟨0, 0, 0⟩ ht.2⟩

/-- Any number is taken for an address. -/
theorem accesses_unchecked : ¬∀ C : Conf State Stmt,
    Reach machine (.events fun _ => True) State.init C → ∀ u ∈ C.shared.accesses, u.allowed := by
  intro h
  obtain ⟨C, hC, ht⟩ := Reach.exists_of_steps machine (.events fun _ => True) State.init
    [Label.env (Occurrence.sync 2 0x1000), .run 0 ⟨0, 0, 0⟩, .run 0 ⟨0, 0, 0⟩] (fun _ _ _ => true)
    (fun C => C.shared.accesses.any fun u => !u.allowed) (fun _ _ _ _ => trivial)
    (fun _ _ _ _ => trivial) (by decide +kernel)
  obtain ⟨u, hu, hno⟩ := List.any_eq_true.mp ht
  rw [h C hC u hu] at hno
  cases hno

theorem exec_handles (h : exec a x s = some (s', p)) : s.handles o ≤ s'.handles o ∨
    ∃ c k, a = .handleDelete c k ∧ s.lookup c k = some o := by
  cases a with
  | handleCreate c o' =>
    simp only [exec] at h
    repeat' split at h
    all_goals cases h
    · exact .inl le_rfl
    · exact .inl (by simp [State.handles, List.countP_cons])
  | handleDelete c k =>
    simp only [exec, Option.some.injEq] at h
    split at h <;> cases h
    · rename_i o' hl
      by_cases ho : o' = o
      · exact .inr ⟨c, k, rfl, ho ▸ hl⟩
      · have := handles_delete (lookup_mem hl) o
        rw [if_neg ho] at this
        exact .inl this.symm.le
    · exact .inl le_rfl
  | idrRemove c k =>
    cases h
    exact .inl (handles_remove s c k o).symm.le
  | use c v u =>
    have hacc : (s.access c v).handles o = s.handles o := by
      rw [State.access]
      split <;> rfl
    have hsame : s'.handles o = (s.access c v).handles o := by
      cases u <;> simp only [exec, Option.some.injEq] at h
      case jobGet | jobPut =>
        cases hl : (s.access c v).locate v <;> rw [hl] at h <;> cases h <;> rfl
      all_goals cases h; rfl
    exact .inl (hsame.trans hacc).symm.le
  | _ =>
    simp only [exec, Option.some.injEq] at h
    repeat' split at h
    all_goals
      cases h
      try exact .inl le_rfl

theorem exec_reader {b : Stmt} (h : exec a x s = some (s', p)) (hb : b ∈ p)
    (hr : b.reader = some o) : a.reader = some o ∨ 0 < s'.handles o := by
  cases a with
  | createFind c k =>
    simp only [exec, Option.some.injEq] at h
    split at h <;> cases h
    · rename_i o' hl
      obtain rfl : o' = o := by
        simp only [copyResults, List.mem_cons, List.not_mem_nil, or_false] at hb
        rcases hb with rfl | rfl | rfl | rfl | rfl <;> cases hr <;> rfl
      exact .inr (handles_pos (lookup_mem hl) rfl)
    · obtain rfl := List.mem_singleton.mp hb
      cases hr
  | handleCreate c o' =>
    simp only [exec] at h
    repeat' split at h
    all_goals cases h
    · obtain rfl := List.mem_singleton.mp hb
      cases hr
    · obtain rfl : o' = o := by
        simp only [copyResults, List.mem_cons, List.not_mem_nil, or_false] at hb
        rcases hb with rfl | rfl | rfl | rfl | rfl <;> cases hr <;> rfl
      exact .inr (handles_pos List.mem_cons_self rfl)
  | destroyFind c k =>
    simp only [exec, Option.some.injEq] at h
    split at h <;> cases h
    · rename_i o' hl
      obtain rfl : o' = o := by
        rcases List.mem_pair.mp hb with rfl | rfl
        · cases hr
        · cases hr; rfl
      exact .inr (handles_pos (lookup_mem hl) rfl)
    · obtain rfl := List.mem_singleton.mp hb
      cases hr
  | destroyDomain c k o' n =>
    simp only [exec, Option.some.injEq] at h
    repeat' split at h
    all_goals
      cases h
      obtain rfl := List.mem_singleton.mp hb
      first | exact .inl hr | cases hr
  | use c v u =>
    have hnone : ∀ b ∈ p, b.reader = none := by
      cases u <;> simp only [exec, Option.some.injEq] at h
      all_goals
        try split at h
        all_goals
          cases h
          simp [Stmt.reader]
    rw [hnone b hb] at hr
    cases hr
  | _ =>
    have hnone : ∀ b ∈ p, b.reader = none := by
      simp only [exec, Option.some.injEq] at h
      repeat' split at h
      all_goals cases h <;> simp [Stmt.reader]
    rw [hnone b hb] at hr
    cases hr

/-- Reads are of objects that have a handle. -/
structure Readable (s : State) (B : Multiset Stmt) : Prop where
  readers : ∀ b ∈ B, ∀ o, b.reader = some o → 0 < s.handles o
  reads : ∀ r ∈ s.reads, r.freed = false

theorem exec_reads (h : exec a x s = some (s', p)) :
    s'.reads = s.reads ∨ ∃ o, a.reader = some o ∧ s'.reads = ⟨o, s.freed o⟩ :: s.reads := by
  cases a with
  | read o f => cases h; exact .inr ⟨o, rfl, rfl⟩
  | destroyDomain c k o n => cases h; exact .inr ⟨o, rfl, rfl⟩
  | use c v u =>
    have hacc : (s.access c v).reads = s.reads := by
      rw [State.access]
      split <;> rfl
    have hsame : s'.reads = (s.access c v).reads := by
      cases u <;> simp only [exec, Option.some.injEq] at h
      case jobGet | jobPut =>
        cases hl : (s.access c v).locate v <;> rw [hl] at h <;> cases h <;> rfl
      all_goals cases h; rfl
    exact .inl (hsame.trans hacc)
  | _ =>
    simp only [exec, Option.some.injEq] at h
    repeat' split at h
    all_goals
      cases h
      try exact .inl rfl

theorem Readable.reach (hC : Reach machine (addressGuard.and readGuard) State.init C) :
    Readable C.shared C.pending := by
  refine hC.invariant_with Counted Readable (fun _ hC => Counted.reach hC.left)
    ⟨by simp, by simp [State.init]⟩ ?_ ?_
  · intro s R a x s' p hJ hI hG h
    have hself := Multiset.mem_cons_self a R
    constructor
    case readers =>
      intro b hb o hr
      have hold : ∀ b ∈ a ::ₘ R, b.reader = some o → 0 < s'.handles o := by
        intro b hb hr
        have hpos := hI.readers b hb o hr
        rcases exec_handles h with hle | ⟨c, k, rfl, hl⟩
        · exact hpos.trans_le hle
        · exact absurd hr (hG.2 c k o rfl hl b hb)
      rcases Multiset.mem_add.mp hb with hb | hb
      · rcases exec_reader h (by simpa using hb) hr with hr | hpos
        · exact hold a hself hr
        · exact hpos
      · exact hold b (Multiset.mem_cons_of_mem hb) hr
    case reads =>
      intro r hr
      rcases exec_reads h with he | ⟨o, ho, he⟩ <;> rw [he] at hr
      · exact hI.reads r hr
      · rcases List.mem_cons.mp hr with rfl | hr
        · exact (hJ.live (hI.readers a hself o ho)).2
        · exact hI.reads r hr
  · intro s R e s' p _ hI _ h
    cases h
    refine ⟨fun b hb o hr => ?_, hI.reads⟩
    rcases Multiset.mem_add.mp hb with hb | hb
    · cases e <;> obtain rfl : b = _ := by simpa using hb
      all_goals cases hr
    · exact hI.readers b hb o hr

/-- Calls of `rknpu_gem_create_ioctl` and `rknpu_gem_destroy_ioctl`. -/
def handleCalls : Guard State Stmt Reply Occurrence :=
  .events fun
    | .create _ _ | .destroy _ _ => True
    | _ => False

def Stmt.plain : Stmt → Bool
  | .syncCheck _ _ | .use _ _ _ | .jobRun _ _ => false
  | _ => true

theorem handleCalls_plain (hC : Reach machine (handleCalls.and G) State.init C) :
    ∀ b ∈ C.pending, b.plain := by
  refine hC.pending_all (fun b => b.plain) ?_ ?_
  · intro s B a x s' p ha _ h
    replace h : exec a x s = some (s', p) := h
    cases a with
    | syncCheck c v | use c v u | jobRun c v => cases ha
    | _ =>
      simp only [exec, Option.some.injEq] at h
      repeat' split at h
      all_goals cases h <;> simp [Stmt.plain, copyResults]
  · intro s B e s' p hG h
    cases h
    cases e with
    | create c k | destroy c k => simp [Stmt.plain]
    | sync c v | submit c v => exact absurd hG.1 id

theorem Stmt.plain.user {b : Stmt} (h : b.plain) : b.user = none := by
  cases b <;> first | rfl | cases h

/-- Each field of an object that the calls read is read before the object is freed. -/
theorem reads_before_free (C : Conf State Stmt)
    (hC : Reach machine (handleCalls.and readGuard) State.init C) :
    ∀ r ∈ C.shared.reads, r.freed = false := by
  have hC' : Reach machine (addressGuard.and readGuard) State.init C := by
    refine hC.restrict ?_ ?_
    · intro C hC a x ha hG
      refine ⟨fun c k o _ _ b hb hu => ?_, hG.2⟩
      rw [Stmt.plain.user (handleCalls_plain hC b hb)] at hu
      cases hu
    · intro C hC e hG
      refine ⟨?_, trivial⟩
      cases e with
      | create c k | destroy c k => trivial
      | sync c v | submit c v => exact absurd hG.1 id
  exact (Readable.reach hC').reads

def readTest (C : Conf State Stmt) : Label Reply Occurrence → Bool
  | .run i _ => match C.threads[i]? with
    | some (.handleDelete c h :: _) =>
      (C.shared.lookup c h).all fun o => C.threads.flatten.all fun b => b.reader != some o
    | _ => true
  | .env (.create _ _) | .env (.destroy _ _) => true
  | .env _ => false

theorem readTest_run {i : Nat} {k : List Stmt} (hi : C.threads[i]? = some (a :: k))
    (h : readTest C (.run i x)) : (handleCalls.and readGuard).run C.shared C.pending a x := by
  refine ⟨trivial, ?_⟩
  rintro c n o rfl hl b hb
  simp only [readTest, hi, hl, Option.all_some, List.all_eq_true] at h
  exact bne_iff_ne.mp (h b hb)

theorem readTest_env {e : Occurrence} (h : readTest C (.env e)) :
    (handleCalls.and readGuard).env C.shared C.pending e := by
  cases e with
  | create c n | destroy c n => exact ⟨trivial, trivial⟩
  | sync c v | submit c v => cases h

def destroyRun : List (Label Reply Occurrence) :=
  createRun ++ [Label.env (Occurrence.destroy 1 1)] ++ List.replicate 7 (Label.run 1 ⟨0, 0, 0⟩)

theorem reads_before_free_destroyRun : ∃ C : Conf State Stmt, C.shared.reads.length = 4 ∧
    C.shared.freed 0 ∧ ∀ r ∈ C.shared.reads, r.freed = false := by
  obtain ⟨C, hC, ht⟩ := Reach.exists_of_checked machine (handleCalls.and readGuard) State.init
    destroyRun readTest (fun C => C.shared.reads.length == 4 && C.shared.freed 0)
    (fun _ _ _ _ _ => readTest_run) (fun _ _ => readTest_env) (by decide +kernel)
  rw [Bool.and_eq_true, beq_iff_eq] at ht
  exact ⟨C, ht.1, ht.2, reads_before_free C hC⟩

/-- The handle is deleted by a second thread before the first one has copied the results. -/
def earlyDestroyRun : List (Label Reply Occurrence) :=
  [Label.env (Occurrence.create 1 0), .run 0 ⟨0, 0, 0⟩, .run 0 ⟨0, 0, 0x1000⟩, .run 0 ⟨0, 1, 0⟩,
    Label.env (Occurrence.destroy 1 1)] ++ List.replicate 7 (Label.run 1 ⟨0, 0, 0⟩) ++
    [Label.run 0 ⟨0, 0, 0⟩, .run 0 ⟨0, 0, 0⟩]

theorem read_after_free : ¬∀ C : Conf State Stmt, Reach machine handleCalls State.init C →
    ∀ r ∈ C.shared.reads, r.freed = false := by
  intro h
  obtain ⟨C, hC, ht⟩ := Reach.exists_of_steps machine handleCalls State.init earlyDestroyRun
    (fun _ _ _ => true) (fun C => C.shared.reads.any Read.freed) (fun _ _ _ _ => trivial)
    (fun e he _ _ => by
      simp [earlyDestroyRun] at he
      rcases he with rfl | rfl <;> trivial)
    (by decide +kernel)
  obtain ⟨r, hr, hf⟩ := List.any_eq_true.mp ht
  rw [h C hC r hr] at hf
  cases hf

end Gem

end Rknpu
