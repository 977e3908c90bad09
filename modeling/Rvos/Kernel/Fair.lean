import Rvos.Kernel.Family

/-! # Waiting for a turn

    The scheduler takes the first ready process after the current one, in the order
    of the process numbers, and starts again at the lowest number when there is
    none.  Numbers grow with every `clone`, so that the round a process waits for
    can get longer while it waits.  It still has an end:

    * `waits_one_round` : while a process is ready and waits, every other process
      has at most one turn; the turns are at most as many as the other processes
      there are, and the children created meanwhile. -/

namespace Rvos

open Access ByteMem Usize Assoc

/-! ## Section 1: The order of a round -/

/-- In the round that ends with `q`, the process `c` has its turn before `d`:
    first come the numbers above `q`, then those up to `q`. -/
def Before (q c d : Nat) : Prop := (q < c ∧ (c < d ∨ d ≤ q)) ∨ (c < d ∧ d ≤ q)

theorem Before.trans {q a b c : Nat} (h1 : Before q a b) (h2 : Before q b c) : Before q a c := by
  unfold Before at *
  omega

theorem Before.ne {q a b : Nat} (h : Before q a b) : a ≠ b := by
  unfold Before at h
  omega

/-- The successor of the current process does not jump over a ready one. -/
theorem pick_next_before {l : List Nat} (hl : l.Pairwise (· < ·)) {q cur : Nat} (hq : q ∈ l)
    (hne : q ≠ cur) : ∃ next, pick_next l cur = some next ∧ Before q cur next := by
  unfold pick_next
  cases hfind : l.find? (· > cur) with
  | some next =>
    refine ⟨next, rfl, ?_⟩
    obtain ⟨hnext, as, bs, rfl, has⟩ := List.find?_eq_some_iff_append.mp hfind
    have hgt : cur < next := by simpa using hnext
    -- what stands in front of `next` is not above the current number
    have hle : cur < q → next ≤ q := by
      intro hlt
      rcases List.mem_append.mp hq with hqa | hqb
      · have := has q hqa
        simp only [gt_iff_lt, Bool.not_eq_true', decide_eq_false_iff_not] at this
        omega
      · rcases List.mem_cons.mp hqb with rfl | hqb
        · exact Nat.le_refl _
        · exact Nat.le_of_lt ((List.pairwise_cons.mp (List.pairwise_append.mp hl).2.1).1 q hqb)
    unfold Before
    omega
  | none =>
    -- all are below: the round starts again
    have hlow := List.find?_eq_none.mp hfind q hq
    simp only [gt_iff_lt, decide_eq_true_eq] at hlow
    cases l with
    | nil => cases hq
    | cons a rest =>
      refine ⟨a, rfl, ?_⟩
      have hle : a ≤ q := by
        rcases List.mem_cons.mp hq with rfl | hqr
        · exact Nat.le_refl _
        · exact Nat.le_of_lt ((List.pairwise_cons.mp hl).1 q hqr)
      unfold Before
      omega

/-! ## Section 2: Tables -/

namespace Table

variable {T T' : Table} {e : Event} {q : Nat}

/-- The process could run. -/
def Waits (T : Table) (q : Nat) : Prop := ∃ x, T.get q = some x ∧ x.state = .Ready

/-- No call of another process takes a ready process off the list. -/
theorem Live.acted_waits (h : T.Live) (hret : T.Returns e.num e.args e.ret) (hq : T.Waits q)
    (hne : q ≠ T.current) : (T.acted e).Waits q := by
  obtain ⟨x, hx, hready⟩ := hq
  cases acted_cases hret with
  | exit hexit hT =>
    rw [hT]
    unfold Waits
    rw [get_exit _ h.parent_ne, if_neg hne]
    split
    · refine ⟨_, by rw [hx]; rfl, ?_⟩
      show wake x.state = .Ready
      rw [hready]
      rfl
    · exact ⟨x, hx, hready⟩
  | fork hnum hret' hT =>
    rw [hT]
    refine ⟨x, ?_, hready⟩
    have hlt := (h.ok.entry q x hx).2.1
    rw [get_fork h.ok, if_neg (by omega)]
    exact hx
  | reap z hnum hz hret' hT =>
    rw [hT]
    refine ⟨x, ?_, hready⟩
    obtain ⟨x', hx', -, hzombie, -⟩ := find_zombie_some h.ok hz
    rw [get_reap, if_neg]
    · exact hx
    · -- a zombie is not ready
      intro hqz
      rw [← hqz, hx] at hx'
      cases hx'
      rw [hready] at hzombie
      cases hzombie
  | block hblock hz hT =>
    rw [hT]
    refine ⟨x, ?_, hready⟩
    rw [get_set_state, if_neg hne]
    exact hx
  | other hexit hclone hwait hT =>
    rw [hT]
    exact ⟨x, hx, hready⟩

/-- **One turn**: it goes to a process further on in the round. -/
theorem Live.next_before (h : T.Live) (hn : Next T e T') (hq : T.Waits q) (hne : q ≠ T.current) :
    Before q T.current T'.current ∧ (T'.current = q ∨ T'.Waits q) := by
  obtain ⟨x, hx, hready⟩ := h.acted_waits hn.returns hq hne
  obtain ⟨hok, -⟩ := h.acted hn.returns
  have hpick : ((T.acted e).set_state T.current Table.yield).pick = some T' := hn.trap
  have hcurrent : ((T.acted e).set_state T.current Table.yield).current = T.current := by
    simp [Table.acted]
  have hok1 : ((T.acted e).set_state T.current Table.yield).Ok := by
    have h1 := hok.yield.1
    rwa [show (T.acted e).current = T.current by simp [Table.acted]] at h1
  have hx1 : ((T.acted e).set_state T.current Table.yield).get q = some x := by
    rw [get_set_state, if_neg hne]
    exact hx
  generalize (T.acted e).set_state T.current Table.yield = T1 at *
  obtain ⟨next, hnext, hbefore⟩ := pick_next_before hok1.ready_sorted
    ((mem_ready hok1).mpr ⟨x, hx1, hready⟩) hne
  unfold pick at hpick
  rw [hcurrent, hnext] at hpick
  simp only [if_neg hbefore.ne.symm, Option.some.injEq] at hpick
  subst hpick
  refine ⟨hbefore, ?_⟩
  by_cases hqn : next = q
  · exact Or.inl hqn
  · refine Or.inr ⟨x, ?_, hready⟩
    rw [get_resume, if_neg (fun hh => hqn hh.symm)]
    exact hx1

end Table

/-- A `clone` that made a child. -/
def Event.Forks (e : Event) : Prop := e.num = 220 ∧ 0 < e.ret

instance (e : Event) : Decidable e.Forks := inferInstanceAs (Decidable (_ ∧ _))

/-- The numbers of the children that the events made. -/
def childrenOf (es : List Event) : List Nat := (es.filter fun e => e.Forks).map fun e => e.ret.toNat

/-- Who is in the table was in `T0` or was created by the events since. -/
def Known (T0 : Table) (es : List Event) (T : Table) : Prop :=
  ∀ p x, T.get p = some x → p ∈ T0.procs.map Prod.fst ∨ p ∈ childrenOf es

/-! ## Section 3: Runs -/

/-- What the events `es` say since the table was `T0`, while `q` waits. -/
structure Round (T0 : Table) (q : Nat) (es : List Event) (T : Table) : Prop where
  live : T.Live
  waits : T.current = q ∨ T.Waits q
  /-- The turns follow the order of the round, … -/
  order : (es.map Event.pid).Pairwise (Before q)
  /-- … and the current process comes after them. -/
  last : ∀ e ∈ es, Before q e.pid T.current
  known : Known T0 es T
  /-- The turns were those of known processes. -/
  turns : ∀ e ∈ es, e.pid ∈ T0.procs.map Prod.fst ∨ e.pid ∈ childrenOf es

section Rounds

open Table

variable {T0 T T' : Table} {q : Nat} {es : List Event} {e : Event}

theorem childrenOf_append (es es' : List Event) : childrenOf (es ++ es') = childrenOf es ++ childrenOf es' := by
  simp [childrenOf]

theorem known_refl (T : Table) : Known T [] T := by
  intro p x hx
  exact Or.inl (List.mem_map.mpr ⟨(p, x), mem_of_lookup hx, rfl⟩)

theorem mem_known_append {p : Nat} (h : p ∈ T0.procs.map Prod.fst ∨ p ∈ childrenOf es) (es' : List Event) :
    p ∈ T0.procs.map Prod.fst ∨ p ∈ childrenOf (es ++ es') := by
  rw [childrenOf_append]
  exact h.imp_right (List.mem_append_left _)

theorem Known.step (h : Known T0 es T) (hlive : T.Live) (hn : Next T e T') : Known T0 (es ++ [e]) T' := by
  intro p x hx
  obtain ⟨hkept, -, -⟩ := hlive.next hn
  obtain ⟨x1, hx1, -⟩ := hkept.back hx
  cases acted_cases hn.returns with
  | exit hexit hT =>
    rw [hT, get_exit _ hlive.parent_ne] at hx1
    apply mem_known_append
    cases hp : T.get p with
    | none => simp [hp] at hx1
    | some x0 => exact h p x0 hp
  | fork hnum hret hT =>
    rw [hT, get_fork hlive.ok] at hx1
    split at hx1
    · next hp =>
      -- the new child
      right
      have hpos := hlive.current_lt
      have hforks : e.Forks := ⟨hnum, by omega⟩
      rw [childrenOf_append]
      apply List.mem_append_right
      simp only [childrenOf, List.filter_cons, hforks, decide_true, if_true, List.filter_nil, List.map_cons,
        List.map_nil, List.mem_singleton]
      omega
    · exact mem_known_append (h p x1 hx1) _
  | reap z hnum hz hret hT =>
    rw [hT, get_reap] at hx1
    split at hx1
    · cases hx1
    · exact mem_known_append (h p x1 hx1) _
  | block hblock hz hT =>
    rw [hT, get_set_state] at hx1
    apply mem_known_append
    cases hp : T.get p with
    | none => simp [hp] at hx1
    | some x0 => exact h p x0 hp
  | other hexit hclone hwait hT =>
    rw [hT] at hx1
    exact mem_known_append (h p x1 hx1) _

theorem Round.step (h : Round T0 q es T) (hn : Next T e T') (hq : e.pid ≠ q) : Round T0 q (es ++ [e]) T' := by
  have hcaller := hn.caller
  obtain ⟨-, -, hlive⟩ := h.live.next hn
  have hne : q ≠ T.current := fun hh => hq (hcaller.trans hh.symm)
  have hwaits : T.Waits q := h.waits.resolve_left fun hh => hne hh.symm
  obtain ⟨hbefore, hwaits'⟩ := h.live.next_before hn hwaits hne
  refine ⟨hlive, hwaits', ?_, ?_, h.known.step h.live hn, ?_⟩
  · rw [List.map_append, List.pairwise_append]
    refine ⟨h.order, List.pairwise_singleton _ _, ?_⟩
    intro a ha b hb
    obtain ⟨x, hx, rfl⟩ := List.mem_map.mp ha
    obtain rfl : b = e.pid := by simpa using hb
    rw [hcaller]
    exact h.last x hx
  · intro x hx
    rcases List.mem_append.mp hx with hx | hx
    · exact (h.last x hx).trans hbefore
    · obtain rfl := List.mem_singleton.mp hx
      rw [hcaller]
      exact hbefore
  · intro x hx
    rcases List.mem_append.mp hx with hx | hx
    · exact mem_known_append (h.turns x hx) _
    · obtain rfl := List.mem_singleton.mp hx
      obtain ⟨c, hc, -⟩ := h.live.current
      rw [hcaller]
      exact mem_known_append (h.known _ c hc) _

theorem Kernel.table_length (k : Kernel) : k.table.procs.length = k.procs.size := by
  simp [Kernel.table, mapVal]

/-- Nobody has had two turns, and `q` has had none. -/
theorem Round.length (h : Round T0 q es T) (hq : q ∈ T0.procs.map Prod.fst) (hother : ∀ e ∈ es, e.pid ≠ q) :
    (es.map Event.pid).Nodup ∧ es.length < T0.procs.length + (childrenOf es).length := by
  have hnodup : (es.map Event.pid).Nodup := h.order.imp fun hab => hab.ne
  refine ⟨hnodup, ?_⟩
  have hcons : (q :: es.map Event.pid).Nodup := by
    refine List.nodup_cons.mpr ⟨?_, hnodup⟩
    intro hmem
    obtain ⟨x, hx, hxq⟩ := List.mem_map.mp hmem
    exact hother x hx hxq
  have hsub : q :: es.map Event.pid ⊆ T0.procs.map Prod.fst ++ childrenOf es := by
    intro p hp
    apply List.mem_append.mpr
    rcases List.mem_cons.mp hp with rfl | hp
    · exact Or.inl hq
    · obtain ⟨x, hx, rfl⟩ := List.mem_map.mp hp
      exact h.turns x hx
  have hle := (hcons.subperm hsub).length_le
  simp only [List.length_cons, List.length_map, List.length_append] at hle
  omega

end Rounds

section Runs

variable {env : Env} {s0 s t : System} {es0 es : List Event} {q : Nat} {p : Process}

/-- The round of a process that is ready. -/
theorem round_run (hlive : s.k.table.Live) (hq : s.k.procs[q]? = some p) (hready : p.state = .Ready)
    (hrun : LTS.Steps (Happens env) s es t) (hother : ∀ e ∈ es, e.pid ≠ q) :
    Round s.k.table q es t.k.table ∧ (es.map Event.pid).Nodup ∧
      es.length < s.k.procs.size + (childrenOf es).length := by
  have hget : s.k.table.get q = some p.entry := by rw [Kernel.table_get, hq]; rfl
  have hround : Round s.k.table q es t.k.table := by
    induction hrun with
    | nil =>
      exact ⟨hlive, Or.inr ⟨p.entry, hget, hready⟩, List.Pairwise.nil, by simp, known_refl _, by simp⟩
    | snoc e hpre hl ih =>
      have hpre' := ih (fun x hx => hother x (List.mem_append_left _ hx))
      exact hpre'.step (hl.next hpre'.live.ok.numbered) (hother e (by simp))
  have hmem : q ∈ s.k.table.procs.map Prod.fst := List.mem_map.mpr ⟨(q, p.entry), mem_of_lookup hget, rfl⟩
  obtain ⟨hnodup, hlen⟩ := hround.length hmem hother
  refine ⟨hround, hnodup, ?_⟩
  rw [← s.k.table_length]
  exact hlen

/-- **Bounded waiting.**  From any state of a run in which `q` is ready, as long as
    `q` has no turn: no process has two turns, there are fewer turns than processes
    and children created meanwhile, and `q` stays ready until its turn. -/
theorem waits_one_round (hstart : Start env s0) (hbefore : LTS.Steps (Happens env) s0 es0 s)
    (hq : s.k.procs[q]? = some p) (hready : p.state = .Ready)
    (hrun : LTS.Steps (Happens env) s es t) (hother : ∀ e ∈ es, e.pid ≠ q) :
    (es.map Event.pid).Nodup ∧ es.length < s.k.procs.size + (childrenOf es).length ∧
      (t.k.current_pid = q ∨ ∃ p', t.k.procs[q]? = some p' ∧ p'.state = .Ready) := by
  obtain ⟨hround, hnodup, hlen⟩ := round_run (lifecycle_run hstart hbefore).live hq hready hrun hother
  refine ⟨hnodup, hlen, hround.waits.imp id ?_⟩
  intro hw
  exact (Kernel.table_state (q := (· = .Ready))).mp hw

/-- The calls of the processes 2 and 3. -/
def twoTurns : List Event := [⟨2, 220, ⟨0, 0, 0, 0, 0, 0⟩, 3, false⟩, ⟨3, 172, ⟨0, 0, 0, 0, 0, 0⟩, 3, false⟩]

/-- The first process makes a child; the child makes another, which has its turn;
    meanwhile the first process waits. -/
theorem two_turns : ∃ s0 s t p, Start Env.quiet s0 ∧
    LTS.Steps (Happens Env.quiet) s0 [⟨1, 220, ⟨0, 0, 0, 0, 0, 0⟩, 2, false⟩] s ∧
    s.k.procs[1]? = some p ∧ p.state = .Ready ∧ LTS.Steps (Happens Env.quiet) s twoTurns t ∧ t.k.current_pid = 1 := by
  obtain ⟨s0, hs, hroom, -⟩ := start_exists fun _ => 0
  obtain ⟨s, hs1, h1, hroom1, htable1⟩ := script_step Env.quiet
    (fun _ _ => 0) .clone ⟨1, 220, ⟨0, 0, 0, 0, 0, 0⟩, 2, false⟩
    ⟨[(1, ⟨1, 0, .Ready, 0⟩), (2, ⟨2, 1, .Running, 0⟩)], 2, 3⟩ hs.inv hroom
    (by rw [hs.start.table]; decide +kernel)
  obtain ⟨t1, hs2, h2, hroom2, htable2⟩ := script_step Env.quiet
    (fun _ _ => 0) .clone ⟨2, 220, ⟨0, 0, 0, 0, 0, 0⟩, 3, false⟩
    ⟨[(1, ⟨1, 0, .Ready, 0⟩), (2, ⟨2, 1, .Ready, 0⟩), (3, ⟨3, 2, .Running, 0⟩)], 3, 4⟩ h1 hroom1
    (by rw [htable1]; decide +kernel)
  obtain ⟨t, hs3, -, -, htable3⟩ := script_step Env.quiet
    (fun _ _ => 0) .getpid ⟨3, 172, ⟨0, 0, 0, 0, 0, 0⟩, 3, false⟩
    ⟨[(1, ⟨1, 0, .Running, 0⟩), (2, ⟨2, 1, .Ready, 0⟩), (3, ⟨3, 2, .Ready, 0⟩)], 1, 4⟩ h2 hroom2
    (by rw [htable2]; decide +kernel)
  obtain ⟨p, hp, hready⟩ : ∃ p, s.k.procs[1]? = some p ∧ p.state = .Ready := by
    apply (Kernel.table_state (q := (· = .Ready))).mp
    rw [htable1]
    exact ⟨_, rfl, rfl⟩
  exact ⟨s0, s, t, p, hs.start, LTS.Steps.single hs1.happens, hp, hready,
    LTS.Steps.snoc _ (LTS.Steps.snoc _ (LTS.Steps.nil s) hs2.happens) hs3.happens, congrArg Table.current htable3⟩

theorem waits_one_round_two : ∃ s t, LTS.Steps (Happens Env.quiet) s twoTurns t ∧
    twoTurns.length < s.k.procs.size + (childrenOf twoTurns).length ∧
    (t.k.current_pid = 1 ∨ ∃ p', t.k.procs[1]? = some p' ∧ p'.state = .Ready) := by
  obtain ⟨s0, s, t, p, hs, hbefore, hp, hready, hrun, -⟩ := two_turns
  exact ⟨s, t, hrun, (waits_one_round hs hbefore hp hready hrun (by decide)).2⟩

end Runs

end Rvos
