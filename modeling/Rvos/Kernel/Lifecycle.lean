import Rvos.Kernel.Sched

/-! # The life of a process

    A process is created by its parent's `clone`, runs, calls `exit`, and is
    then a zombie until its parent's `wait4` removes it.  The whole run is seen
    through its events: who trapped, with which call, and what the call
    returned.

    * `Table.Ok`, `Table.Live` : the invariants of process tables.
    * `Table.Next`   : one event, on tables.
    * `Happens`      : one event of the machine; `Happens.next` is the simulation. -/

namespace Rvos

open Access ByteMem Usize Assoc

/-! ## Section 1: Entries after an operation -/

namespace Table

variable {T T' : Table}

theorem get_modify (pid : Nat) (f : Entry → Entry) (p : Nat) :
    (T.modify pid f).get p = if p = pid then (T.get p).map f else T.get p :=
  lookup_update p pid f T.procs

theorem get_set_state (pid : Nat) (f : ProcState → ProcState) (p : Nat) :
    (T.set_state pid f).get p =
      if p = pid then (T.get p).map fun e => { e with state := f e.state } else T.get p :=
  get_modify pid _ p

theorem get_resume (next p : Nat) : (T.resume next).get p =
    if p = next then (T.get p).map fun e => { e with state := .Running } else T.get p :=
  get_set_state next (fun _ => .Running) p

theorem get_reap (z p : Nat) : (T.reap z).get p = if p = z then none else T.get p :=
  lookup_remove p z T.procs

theorem ascending_modify (h : Ascending T.procs) (pid : Nat) (f : Entry → Entry) :
    Ascending (T.modify pid f).procs :=
  Ascending.update h pid f

/-- The entry of a new child. -/
def childEntry (T : Table) : Entry := ⟨T.next_pid, T.current, .Ready, 0⟩

/-- The invariant: the keys are the numbers of the processes, parents are older
    than their children, and only the current process is marked as running. -/
structure Ok (T : Table) : Prop where
  ascending : Ascending T.procs
  entry : ∀ p e, T.get p = some e → e.pid = p ∧ p < T.next_pid ∧ e.ppid < p
  alone : ∀ p e, T.get p = some e → e.state = .Running → p = T.current

theorem Ok.numbered (h : T.Ok) : T.Numbered := by
  intro p hp
  exact (h.entry p.1 p.2 (h.ascending.lookup_of_mem hp)).2.1

theorem get_fork (h : T.Ok) (p : Nat) :
    T.fork.get p = if p = T.next_pid then some T.childEntry else T.get p := by
  unfold fork get
  rw [lookup_append]
  by_cases hp : p = T.next_pid
  · have hnone : lookup p T.procs = none := by
      cases hget : lookup p T.procs with
      | none => rfl
      | some e =>
        have := (h.entry p e hget).2.1
        omega
    rw [hnone, if_pos hp, if_pos hp]
    rfl
  · rw [if_neg hp, if_neg hp, Option.or_none]

theorem get_exit (code : Int) (hne : T.parent ≠ T.current) (p : Nat) :
    (T.exit code).get p =
      if p = T.current then
        (T.get p).map fun e => { e with state := .Zombie, exit_code := code }
      else if p = T.parent then (T.get p).map fun e => { e with state := wake e.state }
      else T.get p := by
  unfold exit
  rw [get_set_state, get_modify]
  by_cases hp : p = T.current
  · subst hp
    rw [if_neg (fun h => hne h.symm), if_pos rfl]
    simp
  · by_cases hq : p = T.parent
    · rw [if_pos hq, if_neg hp, if_neg hp, if_pos hq]
    · rw [if_neg hq, if_neg hp, if_neg hp, if_neg hq]

/-! ## Section 2: Searching the table -/

/-- A zombie child of the current process that the argument of `wait4` allows. -/
def Waited (T : Table) (q : Int) (z : Nat) (e : Entry) : Prop :=
  T.get z = some e ∧ e.ppid = T.current ∧ e.state = .Zombie ∧ (0 < q → z = ofIsize q)

theorem find_zombie_some (h : T.Ok) {q : Int} {z : Nat} (hz : T.find_zombie q = some z) :
    ∃ e, T.Waited q z e := by
  unfold find_zombie at hz
  obtain ⟨⟨z', e⟩, hfind, rfl⟩ := Option.map_eq_some_iff.mp hz
  have hmem := List.mem_of_find?_eq_some hfind
  have hpred := List.find?_some hfind
  simp only [Bool.and_eq_true, beq_iff_eq, Bool.not_eq_true', Bool.and_eq_false_iff,
    decide_eq_false_iff_not, bne_eq_false_iff_eq] at hpred
  obtain ⟨⟨hppid, hstate⟩, hq⟩ := hpred
  exact ⟨e, h.ascending.lookup_of_mem hmem, hppid, hstate, fun h0 => hq.resolve_left (by omega)⟩

theorem find_zombie_none {q : Int} (hz : T.find_zombie q = none) (z : Nat) (e : Entry) :
    ¬ T.Waited q z e := by
  rintro ⟨hget, hppid, hstate, hq⟩
  unfold find_zombie at hz
  have hnone := List.find?_eq_none.mp (Option.map_eq_none_iff.mp hz) (z, e) (mem_of_lookup hget)
  apply hnone
  simp only [Bool.and_eq_true, beq_iff_eq, Bool.not_eq_true', Bool.and_eq_false_iff,
    decide_eq_false_iff_not, bne_eq_false_iff_eq]
  refine ⟨⟨hppid, hstate⟩, ?_⟩
  by_cases h0 : 0 < q
  · exact Or.inr (hq h0)
  · exact Or.inl h0

theorem mem_ready (h : T.Ok) {p : Nat} :
    p ∈ T.ready ↔ ∃ e, T.get p = some e ∧ e.state = .Ready := by
  unfold ready
  simp only [List.mem_map, List.mem_filter, beq_iff_eq, Prod.exists, exists_and_right,
    exists_eq_right]
  constructor
  · rintro ⟨e, hmem, hstate⟩
    exact ⟨e, h.ascending.lookup_of_mem hmem, hstate⟩
  · rintro ⟨e, hget, hstate⟩
    exact ⟨e, mem_of_lookup hget, hstate⟩

theorem pick_next_none {l : List Nat} {cur : Nat} (h : pick_next l cur = none) : l = [] := by
  unfold pick_next at h
  rw [Option.or_eq_none_iff] at h
  exact List.head?_eq_none_iff.mp h.2

theorem pick_next_mem {l : List Nat} {cur next : Nat} (h : pick_next l cur = some next) :
    next ∈ l := by
  unfold pick_next at h
  rcases Option.or_eq_some_iff.mp h with h | ⟨-, h⟩
  · exact List.mem_of_find?_eq_some h
  · exact List.mem_of_head? h

/-- In a sorted list, a process is its own successor only if it is alone. -/
theorem pick_next_self {l : List Nat} (hl : l.Pairwise (· < ·)) {cur : Nat}
    (h : pick_next l cur = some cur) : l = [cur] := by
  unfold pick_next at h
  rcases Option.or_eq_some_iff.mp h with h | ⟨hnone, hhead⟩
  · have := List.find?_some h
    simp at this
  · cases l with
    | nil => cases hhead
    | cons a rest =>
      obtain rfl : a = cur := by simpa using hhead
      have hrest := (List.pairwise_cons.mp hl).1
      cases rest with
      | nil => rfl
      | cons b rest =>
        have hb := hrest b (by simp)
        have := List.find?_eq_none.mp hnone b (by simp)
        simp only [gt_iff_lt, decide_eq_true_eq] at this
        omega

theorem Ok.ready_sorted (h : T.Ok) : T.ready.Pairwise (· < ·) :=
  List.Pairwise.map _ (fun _ _ hab => hab) (h.ascending.filter _)

/-- What the scheduler does. -/
inductive Picked (T T' : Table) : Prop where
  /-- No process is ready: the current one goes on. -/
  | idle (e : Entry) (hready : ∀ p e', T.get p = some e' → e'.state ≠ .Ready)
      (hcur : T.get T.current = some e) (hstate : e.state ≠ .Zombie)
      (hT : T' = T.resume T.current)
  /-- Only the current one is ready: it goes on, still marked as ready. -/
  | same (e : Entry) (hcur : T.get T.current = some e) (hstate : e.state = .Ready)
      (hready : ∀ p e', T.get p = some e' → e'.state = .Ready → p = T.current) (hT : T' = T)
  | switch (next : Nat) (e : Entry) (hne : next ≠ T.current) (hnext : T.get next = some e)
      (hstate : e.state = .Ready)
      (hT : T' = T.resume next)

theorem pick_cases (h : T.Ok) (hcur : T.get T.current ≠ none) (hpick : T.pick = some T') :
    Picked T T' := by
  unfold pick at hpick
  cases hnext : pick_next T.ready T.current with
  | none =>
    have hready : ∀ p e', T.get p = some e' → e'.state ≠ .Ready := by
      intro p e' hget hstate
      have := (mem_ready h).mpr ⟨e', hget, hstate⟩
      rw [pick_next_none hnext] at this
      cases this
    cases hget : T.get T.current with
    | none => exact absurd hget hcur
    | some e =>
      simp only [hnext, hget] at hpick
      by_cases hz : e.state = .Zombie
      · rw [if_pos hz] at hpick
        cases hpick
      · rw [if_neg hz] at hpick
        exact .idle e hready hget hz (Option.some.inj hpick).symm
  | some next =>
    simp only [hnext] at hpick
    obtain ⟨e, hget, hstate⟩ := (mem_ready h).mp (pick_next_mem hnext)
    by_cases hne : next = T.current
    · subst hne
      rw [if_pos rfl] at hpick
      refine .same e hget hstate ?_ (Option.some.inj hpick).symm
      intro p e' hp hs
      have hmem := (mem_ready h).mpr ⟨e', hp, hs⟩
      rw [pick_next_self h.ready_sorted hnext] at hmem
      exact List.mem_singleton.mp hmem
    · rw [if_neg hne] at hpick
      exact .switch next e hne hget hstate (Option.some.inj hpick).symm

end Table

/-! ## Section 3: Events -/

/-- What is seen of a trap: who trapped, the call, and what it returned.
    `again` says that user code did nothing since it was resumed, so that an
    `ecall` that the kernel rolled back is executed again. -/
structure Event where
  pid : Nat
  num : Nat
  args : Args
  ret : Int
  again : Bool
  deriving DecidableEq, Repr

namespace Event

def isExit (e : Event) : Prop := e.num = 93 ∨ e.num = 94

/-- The exit code. -/
def code (e : Event) : Int := toIsize e.args.a0

/-- The process that `wait4` was asked for. -/
def target (e : Event) : Int := toIsize e.args.a0

/-- A `wait4` that puts its caller to sleep. -/
def Blocks (e : Event) : Prop := e.num = 260 ∧ e.ret = -11

instance (e : Event) : Decidable e.isExit := inferInstanceAs (Decidable (_ ∨ _))

instance (e : Event) : Decidable e.Blocks := inferInstanceAs (Decidable (_ ∧ _))

end Event

namespace Table

variable {T T' : Table} {e : Event}

/-- What `wait4` returns. -/
def wait_result (T : Table) (q options : Int) : Int :=
  match T.find_zombie q with
  | some z => z
  | none => if ofIsize options &&& 1 != 0 then 0 else -11

/-- The results that the calls on processes can have. -/
structure Returns (T : Table) (num : Nat) (a : Args) (ret : Int) : Prop where
  clone : num = 220 → ret = -1 ∨ ret = T.next_pid
  wait4 : num = 260 → ret = T.wait_result (toIsize a.a0) (toIsize a.a2)

/-- One event. -/
structure Next (T : Table) (e : Event) (T' : Table) : Prop where
  caller : e.pid = T.current
  returns : T.Returns e.num e.args e.ret
  trap : T.trap e.num e.args e.ret = some T'

/-- The table when the scheduler is called. -/
def acted (T : Table) (e : Event) : Table := (T.call e.num e.args e.ret).block e.num e.ret

/-- What a call does to the table. -/
inductive Acted (T : Table) (e : Event) (T' : Table) : Prop where
  | exit (hexit : e.isExit) (hT : T' = T.exit e.code)
  | fork (hnum : e.num = 220) (hret : e.ret = T.next_pid) (hT : T' = T.fork)
  | reap (z : Nat) (hnum : e.num = 260) (hz : T.find_zombie e.target = some z) (hret : e.ret = z)
      (hT : T' = T.reap z)
  | block (hblock : e.Blocks) (hz : T.find_zombie e.target = none)
      (hT : T' = T.set_state T.current fun _ => .Waiting)
  | other (hexit : ¬ e.isExit) (hclone : e.num = 220 → e.ret = -1)
      (hwait : e.num = 260 → T.find_zombie e.target = none ∧ e.ret = 0) (hT : T' = T)

/-- **Inversion** of a call. -/
theorem acted_cases (h : T.Returns e.num e.args e.ret) : Acted T e (T.acted e) := by
  unfold acted call block
  by_cases hexit : e.num = 93 ∨ e.num = 94
  · rw [if_pos hexit, if_neg (by omega)]
    exact .exit hexit rfl
  · rw [if_neg hexit]
    by_cases hclone : e.num = 220
    · rw [if_neg (show ¬ (e.num = 260 ∧ e.ret = -11) by omega)]
      rcases h.clone hclone with hret | hret
      · rw [if_neg (by omega), if_neg (by omega)]
        exact .other hexit (fun _ => hret) (fun h => by omega) rfl
      · rw [if_pos ⟨hclone, by omega⟩]
        exact .fork hclone hret rfl
    · rw [if_neg (show ¬ (e.num = 220 ∧ 0 ≤ e.ret) by omega)]
      by_cases hwait : e.num = 260
      · have hret := h.wait4 hwait
        unfold wait_result at hret
        rw [if_pos hwait]
        cases hz : T.find_zombie (toIsize e.args.a0) with
        | some z =>
          simp only [hz] at hret ⊢
          rw [if_neg (by omega)]
          exact .reap z hwait hz hret rfl
        | none =>
          simp only [hz] at hret ⊢
          by_cases hflag : (ofIsize (toIsize e.args.a2) &&& 1 != 0) = true
          · rw [if_pos hflag] at hret
            rw [if_neg (by omega)]
            exact .other hexit (fun h => absurd h hclone) (fun _ => ⟨hz, hret⟩) rfl
          · rw [if_neg hflag] at hret
            rw [if_pos ⟨hwait, hret⟩]
            exact .block ⟨hwait, hret⟩ hz rfl
      · rw [if_neg hwait, if_neg (by tauto)]
        exact .other hexit (fun h => absurd h hclone) (fun h => absurd h hwait) rfl

theorem acted_blocks (h : T.Returns e.num e.args e.ret) (hblock : e.Blocks) :
    T.acted e = T.set_state T.current fun _ => .Waiting := by
  obtain ⟨hnum, hret⟩ := hblock
  cases acted_cases h with
  | exit hexit hT =>
    unfold Event.isExit at hexit
    omega
  | fork hnum' hret' hT => omega
  | reap z hnum' hz hret' hT => omega
  | block hblock hz hT => exact hT
  | other hexit hclone hwait hT =>
    have := (hwait hnum).2
    omega

/-- User code can run. -/
structure Live (T : Table) : Prop where
  ok : T.Ok
  current : ∃ e, T.get T.current = some e ∧ (e.state = .Running ∨ e.state = .Ready)

/-! ## Section 4: The invariant -/

/-- The parent of the current process is not the process itself. -/
theorem Live.parent_ne (h : T.Live) : T.parent ≠ T.current := by
  obtain ⟨e, hget, -⟩ := h.current
  have := (h.ok.entry _ e hget).2.2
  unfold parent
  rw [hget]
  show e.ppid ≠ T.current
  omega

/-- Changing states keeps the invariant if nobody else is marked as running. -/
theorem Ok.set_state (h : T.Ok) (pid : Nat) (f : ProcState → ProcState)
    (hrun : ∀ s, f s = .Running → s = .Running ∨ pid = T.current) : (T.set_state pid f).Ok where
  ascending := ascending_modify h.ascending _ _
  entry := by
    intro p e hget
    rw [get_set_state] at hget
    split at hget
    · obtain ⟨e', he', rfl⟩ := Option.map_eq_some_iff.mp hget
      exact h.entry p e' he'
    · exact h.entry p e hget
  alone := by
    intro p e hget hstate
    rw [get_set_state] at hget
    split at hget
    · next hp =>
      obtain ⟨e', he', rfl⟩ := Option.map_eq_some_iff.mp hget
      rcases hrun _ hstate with hs | hcur
      · exact h.alone p e' he' hs
      · exact hp.trans hcur
    · exact h.alone p e hget hstate

theorem Ok.fork (h : T.Ok) (hcur : T.current < T.next_pid) : T.fork.Ok where
  ascending := h.ascending.append _ h.numbered
  entry := by
    intro p e hget
    have hnext : T.fork.next_pid = T.next_pid + 1 := rfl
    rw [get_fork h] at hget
    split at hget
    · next hp =>
      cases hget
      exact ⟨hp.symm, by omega, by show T.current < p; omega⟩
    · obtain ⟨h1, h2, h3⟩ := h.entry p e hget
      exact ⟨h1, by omega, h3⟩
  alone := by
    intro p e hget hstate
    rw [get_fork h] at hget
    split at hget
    · cases hget
      cases hstate
    · exact h.alone p e hget hstate

theorem Ok.reap (h : T.Ok) (z : Nat) : (T.reap z).Ok where
  ascending := h.ascending.remove z
  entry := by
    intro p e hget
    rw [get_reap] at hget
    split at hget
    · cases hget
    · exact h.entry p e hget
  alone := by
    intro p e hget hstate
    rw [get_reap] at hget
    split at hget
    · cases hget
    · exact h.alone p e hget hstate

theorem Ok.exit (h : T.Ok) (code : Int) : (T.exit code).Ok := by
  have hzombie : (T.modify T.current fun e =>
      { e with state := .Zombie, exit_code := code }).Ok := by
    refine ⟨ascending_modify h.ascending _ _, ?_, ?_⟩
    · intro p e hget
      rw [get_modify] at hget
      split at hget
      · obtain ⟨e', he', rfl⟩ := Option.map_eq_some_iff.mp hget
        exact h.entry p e' he'
      · exact h.entry p e hget
    · intro p e hget hstate
      rw [get_modify] at hget
      split at hget
      · obtain ⟨e', -, rfl⟩ := Option.map_eq_some_iff.mp hget
        cases hstate
      · exact h.alone p e hget hstate
  refine hzombie.set_state _ _ ?_
  intro s hs
  unfold wake at hs
  split at hs
  · cases hs
  · exact Or.inl hs

theorem Live.current_lt (h : T.Live) : T.current < T.next_pid := by
  obtain ⟨e, hget, -⟩ := h.current
  exact (h.ok.entry _ e hget).2.1

/-- A call keeps the invariant and does not remove its caller. -/
theorem Live.acted (h : T.Live) (hret : T.Returns e.num e.args e.ret) :
    (T.acted e).Ok ∧ (T.acted e).get T.current ≠ none := by
  obtain ⟨c, hcur, hstate⟩ := h.current
  cases acted_cases hret with
  | exit hexit hT =>
    rw [hT]
    refine ⟨h.ok.exit _, ?_⟩
    rw [get_exit _ h.parent_ne, if_pos rfl, hcur]
    simp
  | fork hnum hret' hT =>
    rw [hT]
    refine ⟨h.ok.fork h.current_lt, ?_⟩
    rw [get_fork h.ok, hcur]
    split <;> simp
  | reap z hnum hz hret' hT =>
    obtain ⟨e', hget, -, hzombie, -⟩ := find_zombie_some h.ok hz
    rw [hT]
    refine ⟨h.ok.reap z, ?_⟩
    rw [get_reap, if_neg, hcur]
    · simp
    · -- the current process is not a zombie
      intro hne
      rw [hne, hget] at hcur
      cases hcur
      rcases hstate with hs | hs <;> rw [hzombie] at hs <;> cases hs
  | block hblock hz hT =>
    rw [hT]
    refine ⟨h.ok.set_state _ _ (fun s hs => by cases hs), ?_⟩
    rw [get_set_state, if_pos rfl, hcur]
    simp
  | other hexit hclone hwait hT =>
    rw [hT, hcur]
    exact ⟨h.ok, by simp⟩

/-- The entries agree except for the state, and nobody dies or comes back to life. -/
structure Similar (e e' : Entry) : Prop where
  pid : e'.pid = e.pid
  ppid : e'.ppid = e.ppid
  exit_code : e'.exit_code = e.exit_code
  zombie : e'.state = .Zombie ↔ e.state = .Zombie

/-- The same processes, up to their states. -/
structure Kept (T T' : Table) : Prop where
  next_pid : T'.next_pid = T.next_pid
  none : ∀ p, T.get p = none → T'.get p = none
  some : ∀ p e, T.get p = some e → ∃ e', T'.get p = some e' ∧ Similar e e'

theorem Kept.trans {T'' : Table} (h1 : Kept T T') (h2 : Kept T' T'') : Kept T T'' where
  next_pid := h2.next_pid.trans h1.next_pid
  none := fun p hp => h2.none p (h1.none p hp)
  some := by
    intro p e hp
    obtain ⟨e', hp', s1⟩ := h1.some p e hp
    obtain ⟨e'', hp'', s2⟩ := h2.some p e' hp'
    exact ⟨e'', hp'', s2.pid.trans s1.pid, s2.ppid.trans s1.ppid, s2.exit_code.trans s1.exit_code,
      s2.zombie.trans s1.zombie⟩

theorem Kept.back (h : Kept T T') {p : Nat} {e' : Entry} (hget : T'.get p = Option.some e') :
    ∃ e, T.get p = Option.some e ∧ Similar e e' := by
  cases hp : T.get p with
  | none =>
    rw [h.none p hp] at hget
    cases hget
  | some e =>
    obtain ⟨e'', hget', hsim⟩ := h.some p e hp
    rw [hget] at hget'
    cases hget'
    exact ⟨e, rfl, hsim⟩

/-- Changing states in a way that `Similar` allows. -/
theorem Kept.set_state {pid : Nat} {f : ProcState → ProcState}
    (hf : ∀ e, T.get pid = Option.some e → (f e.state = .Zombie ↔ e.state = .Zombie)) :
    Kept T (T.set_state pid f) where
  next_pid := rfl
  none := by
    intro p hp
    rw [get_set_state, hp]
    simp
  some := by
    intro p e hp
    rw [get_set_state, hp]
    by_cases hpid : p = pid
    · rw [if_pos hpid]
      exact ⟨_, rfl, rfl, rfl, rfl, hf e (hpid ▸ hp)⟩
    · rw [if_neg hpid]
      exact ⟨e, rfl, rfl, rfl, rfl, Iff.rfl⟩

/-- Nobody falls asleep. -/
def NoSleep (T T' : Table) : Prop :=
  ∀ p e', T'.get p = some e' → e'.state = .Waiting → ∃ e, T.get p = some e ∧ e.state = .Waiting

theorem NoSleep.trans {T'' : Table} (h1 : NoSleep T T') (h2 : NoSleep T' T'') : NoSleep T T'' := by
  intro p e'' hp hw
  obtain ⟨e', hp', hw'⟩ := h2 p e'' hp hw
  exact h1 p e' hp' hw'

theorem NoSleep.set_state {pid : Nat} {f : ProcState → ProcState}
    (hf : ∀ s, f s = .Waiting → s = .Waiting) : NoSleep T (T.set_state pid f) := by
  intro p e' hp hw
  rw [get_set_state] at hp
  split at hp
  · obtain ⟨e, he, rfl⟩ := Option.map_eq_some_iff.mp hp
    exact ⟨e, he, hf _ hw⟩
  · exact ⟨e', hp, hw⟩

theorem NoSleep.resume (next : Nat) : NoSleep T (T.resume next) :=
  @NoSleep.set_state T next (fun _ => .Running) (fun _ h => by cases h)

/-- After `yield` no process is marked as running. -/
theorem Ok.yield (h : T.Ok) : (T.set_state T.current yield).Ok ∧
    ∀ p e, (T.set_state T.current yield).get p = some e → e.state ≠ .Running := by
  have hrun : ∀ s, Table.yield s ≠ .Running := by
    intro s
    cases s <;> simp [Table.yield]
  have hok := h.set_state T.current Table.yield (fun s hs => absurd hs (hrun s))
  refine ⟨hok, ?_⟩
  intro p e hget hs
  have hp : p = T.current := hok.alone p e hget hs
  rw [get_set_state, if_pos hp] at hget
  obtain ⟨e', -, rfl⟩ := Option.map_eq_some_iff.mp hget
  exact hrun _ hs

theorem Kept.yield (T : Table) : Kept T (T.set_state T.current Table.yield) := by
  refine Kept.set_state fun e _ => ?_
  cases e.state <;> simp [Table.yield]

/-- Marking one process as running when there is none. -/
theorem Ok.resume (h : T.Ok) (hnone : ∀ p e, T.get p = some e → e.state ≠ .Running) {next : Nat}
    {e : Entry} (hnext : T.get next = some e) : (T.resume next).Live := by
  have hasc : Ascending (T.set_state next fun _ => .Running).procs :=
    ascending_modify h.ascending _ _
  constructor
  · refine ⟨hasc, ?_, ?_⟩
    · intro p e' hp
      rw [get_resume] at hp
      split at hp
      · obtain ⟨e1, he1, rfl⟩ := Option.map_eq_some_iff.mp hp
        exact h.entry p e1 he1
      · exact h.entry p e' hp
    · intro p e' hp hs
      rw [get_resume] at hp
      split at hp
      · next hpn => exact hpn
      · exact absurd hs (hnone p e' hp)
  · refine ⟨{ e with state := .Running }, ?_, Or.inl rfl⟩
    show (T.resume next).get next = _
    rw [get_resume, if_pos rfl, hnext]
    rfl

theorem Kept.resume {next : Nat} {e : Entry} (hnext : T.get next = Option.some e)
    (hz : e.state ≠ .Zombie) : Kept T (T.resume next) := by
  have hkept : Kept T (T.set_state next fun _ => .Running) := by
    refine Kept.set_state fun e' he' => ?_
    rw [hnext] at he'
    cases he'
    simp [hz]
  exact ⟨rfl, hkept.none, hkept.some⟩

/-- The scheduler resumes a process. -/
theorem Ok.scheduled (h : T.Ok) (hcur : T.get T.current ≠ none)
    (hpick : (T.set_state T.current Table.yield).pick = some T') :
    Kept T T' ∧ NoSleep T T' ∧ T'.Live := by
  obtain ⟨hok, hnone⟩ := h.yield
  have hkept := Kept.yield T
  have hsleep : NoSleep T (T.set_state T.current Table.yield) :=
    NoSleep.set_state fun s hs => by cases s <;> simp_all [Table.yield]
  have hcur1 : (T.set_state T.current Table.yield).get
      (T.set_state T.current Table.yield).current ≠ none := by
    rw [get_set_state]
    simpa using hcur
  generalize T.set_state T.current Table.yield = T1 at *
  cases pick_cases hok hcur1 hpick with
  | idle e hready hc hstate hT =>
    subst hT
    exact ⟨hkept.trans (Kept.resume hc hstate), hsleep.trans (NoSleep.resume _),
      hok.resume hnone hc⟩
  | same e hc hstate hready hT =>
    subst hT
    exact ⟨hkept, hsleep, hok, e, hc, Or.inr hstate⟩
  | switch next e hne hnext hstate hT =>
    subst hT
    exact ⟨hkept.trans (Kept.resume hnext (by rw [hstate]; simp)), hsleep.trans (NoSleep.resume _),
      hok.resume hnone hnext⟩

/-- **One event** is a call and the scheduler. -/
theorem Live.next (h : T.Live) (hn : Next T e T') :
    Kept (T.acted e) T' ∧ NoSleep (T.acted e) T' ∧ T'.Live := by
  obtain ⟨hok, hcur⟩ := h.acted hn.returns
  have hcurrent : (T.acted e).current = T.current := by simp [Table.acted]
  refine hok.scheduled (by rw [hcurrent]; exact hcur) ?_
  rw [hcurrent]
  exact hn.trap

/-- A process that is alive was alive before, or is the one that trapped or the
    one it created. -/
theorem Live.survives (h : T.Live) (hn : Next T e T') {p : Nat} {e' : Entry}
    (hget : T'.get p = some e') (hz : e'.state ≠ .Zombie) (hp : p ≠ T.current)
    (hnew : ¬ (e.num = 220 ∧ e.ret = p)) : ∃ e0, T.get p = some e0 ∧ e0.state ≠ .Zombie := by
  obtain ⟨hkept, -, -⟩ := h.next hn
  obtain ⟨e2, hget2, hsim⟩ := hkept.back hget
  have hz2 : e2.state ≠ .Zombie := fun hh => hz (hsim.zombie.mpr hh)
  cases acted_cases hn.returns with
  | exit hexit hT =>
    rw [hT, get_exit _ h.parent_ne, if_neg hp] at hget2
    split at hget2
    · obtain ⟨e0, he0, rfl⟩ := Option.map_eq_some_iff.mp hget2
      refine ⟨e0, he0, fun hh => hz2 ?_⟩
      show wake e0.state = .Zombie
      rw [hh]
      rfl
    · exact ⟨e2, hget2, hz2⟩
  | fork hnum hret hT =>
    rw [hT, get_fork h.ok, if_neg (fun hh => hnew ⟨hnum, by rw [hret, hh]⟩)] at hget2
    exact ⟨e2, hget2, hz2⟩
  | reap z hnum hzz hret hT =>
    rw [hT, get_reap] at hget2
    split at hget2
    · cases hget2
    · exact ⟨e2, hget2, hz2⟩
  | block hblock hzz hT =>
    rw [hT, get_set_state, if_neg hp] at hget2
    exact ⟨e2, hget2, hz2⟩
  | other hexit hclone hwait hT =>
    rw [hT] at hget2
    exact ⟨e2, hget2, hz2⟩

end Table

/-! ## Section 5: Events of the machine -/

/-- User code that does nothing before its next trap. -/
def System.idle (s : System) : Burst := ⟨s.cpu.x, s.cpu.f, s.cpu.pc, s.cpu.sstatus, []⟩

/-- What is seen of a step from `s`. -/
structure Trap.Shows (s : System) (l : Trap) (e : Event) : Prop where
  pid : e.pid = s.k.current_pid
  num : e.num = (s.trapCpu l).num
  args : e.args = (s.trapCpu l).args
  ret : e.ret = l.ret
  again : e.again = true ↔ l.burst = s.idle

/-- Something is seen of every step. -/
theorem Trap.exists_event (s : System) (l : Trap) : ∃ e, l.Shows s e := by
  by_cases h : l.burst = s.idle
  · exact ⟨⟨s.k.current_pid, (s.trapCpu l).num, (s.trapCpu l).args, l.ret, true⟩, rfl, rfl, rfl, rfl,
      by simp [h]⟩
  · exact ⟨⟨s.k.current_pid, (s.trapCpu l).num, (s.trapCpu l).args, l.ret, false⟩, rfl, rfl, rfl, rfl,
      by simp [h]⟩

/-- One step, labelled with what is seen of it. -/
def Happens (env : Env) (s : System) (e : Event) (t : System) : Prop :=
  ∃ l, Step env s l t ∧ l.Shows s e

/-- The kernel when `dispatch` is called in the step from `s`. -/
def System.AtCall (s : System) (l : Trap) (k : Kernel) : Prop :=
  ∃ m, user_stores s.k.satp s.k.mm.mem l.burst.stores = some m ∧
    k = (s.k.withMem m).enter (s.trapCpu l)

/-- The kernel when `do_schedule` is called in the step from `s`. -/
def System.AtSchedule (env : Env) (s : System) (l : Trap) (k : Kernel) : Prop :=
  ∃ k0 k1, s.AtCall l k0 ∧ dispatch env (s.trapCpu l).num (s.trapCpu l).args k0 = .ok l.ret k1 ∧
    handler_finish (s.trapCpu l).tf (s.trapCpu l).num l.ret k1 = .ok () k

theorem dispatch_returns {env : Env} {num : Nat} {a : Args} {k k' : Kernel} {r : Int}
    (hnum : k.table.Numbered) (h : dispatch env num a k = .ok r k') : k.table.Returns num a r := by
  constructor
  · intro hn
    subst hn
    rcases sys_clone_table hnum (show sys_clone a.a1 k = .ok r k' from h) with ⟨hr, -⟩ | ⟨hr, -⟩
    · exact Or.inl hr
    · exact Or.inr hr
  · intro hn
    subst hn
    unfold Table.wait_result
    rcases sys_wait4_table (show sys_wait4 (toIsize a.a0) a.a1 (toIsize a.a2) k = .ok r k' from h)
      with ⟨z, hz, hr, -⟩ | ⟨hz, hr, -⟩
    · rw [hz]
      exact hr
    · rw [hz]
      exact hr

/-- **Simulation**: an event of the machine is an event of its table. -/
theorem Happens.next {env : Env} {s t : System} {e : Event} (hnum : s.k.table.Numbered)
    (h : Happens env s e t) : Table.Next s.k.table e t.k.table := by
  obtain ⟨l, hstep, hshow⟩ := h
  have htrap := hstep.table hnum
  obtain ⟨m, k', hm, hd, -⟩ := step_iff.mp hstep
  have hret := dispatch_returns (k := (s.k.withMem m).enter (s.trapCpu l)) hnum hd
  rw [← hshow.num, ← hshow.args, ← hshow.ret] at htrap hret
  exact ⟨hshow.pid, hret, htrap⟩

theorem System.AtSchedule.returns {env : Env} {s : System} {l : Trap} {e : Event} {k : Kernel}
    (hnum : s.k.table.Numbered) (hshow : l.Shows s e) (h : s.AtSchedule env l k) :
    s.k.table.Returns e.num e.args e.ret := by
  obtain ⟨k0, k1, ⟨m, -, rfl⟩, hd, -⟩ := h
  rw [hshow.num, hshow.args, hshow.ret]
  exact dispatch_returns (k := (s.k.withMem m).enter (s.trapCpu l)) hnum hd

/-- The table on which the scheduler is called. -/
theorem System.AtSchedule.table {env : Env} {s : System} {l : Trap} {e : Event} {k : Kernel}
    (hnum : s.k.table.Numbered) (hshow : l.Shows s e) (h : s.AtSchedule env l k) :
    k.table = s.k.table.acted e := by
  obtain ⟨k0, k1, ⟨m, -, rfl⟩, hd, hfinish⟩ := h
  have hcall := dispatch_table (k := (s.k.withMem m).enter (s.trapCpu l)) hnum hd
  rw [handler_finish_table hfinish, hcall]
  unfold Table.acted
  rw [hshow.num, hshow.args, hshow.ret]
  rfl

theorem Step.at_schedule {env : Env} {s t : System} {l : Trap} (h : Step env s l t) :
    ∃ k sp, s.AtSchedule env l k ∧ do_schedule (s.trapCpu l).tf k = .ok sp t.k := by
  obtain ⟨m, k0, hm, hd, hexit⟩ := step_iff.mp h
  obtain ⟨k, sp, hfinish, hsched, -⟩ := trap_exit_cases hexit
  exact ⟨k, sp, ⟨_, k0, ⟨m, hm, rfl⟩, hd, hfinish⟩, hsched⟩

/-- The table of the first process. -/
def firstTable : Table := ⟨[(1, ⟨1, 0, .Running, 0⟩)], 1, 2⟩

theorem Start.table {env : Env} {s : System} (h : Start env s) : s.k.table = firstTable := by
  obtain ⟨k0, k1, elf_data, argv, satp, hboot, hinit, hs, -⟩ := h
  obtain ⟨proc, elf, max_end, ka, kb, hnew, hload, rfl⟩ := init_user_proc_cases hinit
  obtain ⟨mm, hproc, -⟩ := Prog.zoom_eq_ok.mp hnew
  obtain ⟨pt, kstack, s1, s2, -, -, -, hp⟩ := Process.new_cases hproc
  have hempty : kb.procs.toList = [] := by
    have htable : kb.table = k0.table :=
      ((fixes_load_program _ _ _ _ _).of_ok hload).trans ((fixes_mm _).of_ok hnew)
    have hprocs : mapVal (fun _ => Process.entry) kb.procs.toList = [] := by
      rw [show mapVal (fun _ => Process.entry) kb.procs.toList = _ from congrArg Table.procs htable,
        Kernel.table, hboot.procs]
      rfl
    simpa [mapVal] using hprocs
  have hlist : (kb.procs.insert 1 (proc.first elf max_end argv.length)).toList =
      [(1, proc.first elf max_end argv.length)] := by
    rw [toList_insert (t := kb.procs) (fun j => get_insert _ 1 j _) (by simp [hempty]), hempty]
    rfl
  rw [hs]
  unfold Kernel.table firstTable
  rw [hlist, hp]
  rfl

theorem firstTable_live : firstTable.Live := by
  have hget : ∀ p, firstTable.get p = if 1 = p then some ⟨1, 0, .Running, 0⟩ else none := by
    intro p
    simp [firstTable, Table.get]
  refine ⟨⟨List.pairwise_singleton _ _, ?_, ?_⟩, ⟨_, rfl, Or.inl rfl⟩⟩
  · intro p e hp
    rw [hget] at hp
    split at hp
    · next h1 =>
      cases hp
      exact ⟨h1, by rw [← h1]; decide, by rw [← h1]; decide⟩
    · cases hp
  · intro p e hp _
    rw [hget] at hp
    split at hp
    · next h1 => exact h1.symm
    · cases hp

end Rvos
