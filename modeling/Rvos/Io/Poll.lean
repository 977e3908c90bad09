import Rvos.Io.Offsets

/-! # Polling descriptors

    `ppoll` goes over an array of `pollfd` entries and stores into the
    `revents` field of each.  What it stores and whether the entry is counted
    are decided by different conditions: an entry counts as soon as its
    descriptor is below 3, which includes every negative one, or is a fake
    descriptor, while `revents` is the part of the requested events that is
    known.

    * `run_ppoll_loop` : the loop, entry by entry.
    * `ppoll_right_iff` : the count and the fields are right just if no
      descriptor is negative and every ready entry asks for a known event. -/

namespace Rvos

open Access ByteMem Usize

/-! ## Section 1: The entries -/

/-- A `struct pollfd`. -/
structure PollFd where
  fd : Int
  events : Nat
  revents : Nat
  deriving DecidableEq, Repr

/-- The entry `i` of an array. -/
def PollFd.decode (v : List UInt8) (i : Nat) : PollFd where
  fd := i32 (leNat (part v (8 * i) 4))
  events := leNat (part v (8 * i + 4) 2)
  revents := leNat (part v (8 * i + 6) 2)

/-- A descriptor that `ppoll` takes to be ready. -/
def Io.poll_ready (io : Io) (fd : Int) : Bool := decide (fd < 3) || io.fake_fds.contains (ofIsize fd)

/-- The events that are reported for an entry: POLLIN and POLLOUT. -/
def Io.revents (io : Io) (e : PollFd) : Nat := if io.poll_ready e.fd then e.events &&& 5 else 0

/-- The entry after the call. -/
def Io.answer (io : Io) (e : PollFd) : PollFd := { e with revents := io.revents e }

/-- A store into the `revents` of entry `i` is seen there and nowhere else. -/
theorem PollFd.decode_overlay {v : List UInt8} {n i : Nat} (hv : v.length = 8 * n) (hi : i < n) {x : Nat}
    (hx : x < 2 ^ 16) (j : Nat) :
    PollFd.decode (overlay v (8 * i + 6) (leBytes 2 x)) j =
      if j = i then { PollFd.decode v j with revents := x } else PollFd.decode v j := by
  have hle : 8 * i + 6 + (leBytes 2 x).length ≤ v.length := by
    rw [length_leBytes]
    omega
  have hapart : ∀ off len, off + len ≤ 8 * i + 6 ∨ 8 * i + 8 ≤ off →
      part (overlay v (8 * i + 6) (leBytes 2 x)) off len = part v off len := by
    intro off len h
    apply part_overlay_apart hle
    rw [length_leBytes]
    omega
  by_cases hj : j = i
  · subst hj
    have hsame : part (overlay v (8 * j + 6) (leBytes 2 x)) (8 * j + 6) 2 = leBytes 2 x :=
      part_overlay hle (length_leBytes _ _)
    rw [if_pos rfl]
    simp only [PollFd.decode, hsame, hapart (8 * j) 4 (by omega), hapart (8 * j + 4) 2 (by omega), leNat_leBytes,
      PollFd.mk.injEq, true_and]
    exact Nat.mod_eq_of_lt hx
  · rw [if_neg hj]
    simp only [PollFd.decode, hapart (8 * j) 4 (by omega), hapart (8 * j + 4) 2 (by omega),
      hapart (8 * j + 6) 2 (by omega)]

theorem Io.revents_lt (io : Io) (e : PollFd) : io.revents e < 2 ^ 16 := by
  unfold Io.revents
  split
  · exact lt_of_le_of_lt Nat.and_le_right (by decide)
  · decide

/-! ## Section 2: The loop -/

section Loop

variable {M : Machine HeapAllocator Halt} {fds : Ptr} {n : Nat} {f : Nat → Nat}

/-- One turn of the loop. -/
theorem run_ppoll_turn {s : St HeapAllocator Io} {i left ready : Nat} (h : Block M s.mem fds (8 * n) f) (hi : i < n) :
    run M (ppoll_loop (fds.add (8 * i)) (left + 1) ready) s =
      run M (ppoll_loop (fds.add (8 * (i + 1))) left
          (if s.st.poll_ready (PollFd.decode (contents f (8 * n) s.mem) i).fd then ready + 1 else ready))
        { s with
          mem := put f (8 * i + 6) (leBytes 2 (s.st.revents (PollFd.decode (contents f (8 * n) s.mem) i))) s.mem } := by
  have hfd : run M (Code.loadBytes (fds.add (8 * i)) 4 : IoM _) s =
      .ok (part (contents f (8 * n) s.mem) (8 * i) 4) s := h.run_loadBytes (by omega)
  have hevents : run M (Code.loadBytes ((fds.add (8 * i)).add 4) 2 : IoM _) s =
      .ok (part (contents f (8 * n) s.mem) (8 * i + 4) 2) s := by
    rw [Ptr.add_add]
    exact h.run_loadBytes (by omega)
  rw [ppoll_loop, run_bind_of_ok _ hfd, run_bind_of_ok _ hevents]
  -- what follows is the same in both branches of the test
  have hready : ∀ (fd : Int) (k : Bool → IoM Nat),
      run M (if fd < 3 then pure true >>= k else is_fake_fd (ofIsize fd) >>= k) s =
        run M (k (s.st.poll_ready fd)) s := by
    intro fd k
    unfold Io.poll_ready
    by_cases hlow : fd < 3
    · rw [if_pos hlow, run_bind_of_ok _ (run_pure M true s)]
      simp [hlow]
    · have hfake : run M (is_fake_fd (ofIsize fd)) s = .ok (s.st.fake_fds.contains (ofIsize fd)) s := rfl
      rw [if_neg hlow, run_bind_of_ok _ hfake]
      simp [hlow]
  dsimp only
  rw [hready, Ptr.add_add, Ptr.add_add]
  exact h.run_store_bind (by rw [length_leBytes]; omega)

/-- The loop from entry `i` on: the ready entries are counted, every entry gets
    its answer, and nothing but the answers is stored. -/
theorem run_ppoll_loop {left : Nat} : ∀ {i ready : Nat} {s : St HeapAllocator Io}, Block M s.mem fds (8 * n) f →
    i + left = n → ∃ m,
      run M (ppoll_loop (fds.add (8 * i)) left ready) s =
        .ok (ready + (List.range' i left).countP
          fun j => s.st.poll_ready (PollFd.decode (contents f (8 * n) s.mem) j).fd) { s with mem := m } ∧
      (∀ j, PollFd.decode (contents f (8 * n) m) j =
        if i ≤ j ∧ j < n then s.st.answer (PollFd.decode (contents f (8 * n) s.mem) j)
        else PollFd.decode (contents f (8 * n) s.mem) j) ∧
      ∀ a, (∀ j, i ≤ j → j < n → f (8 * j + 6) ≠ a ∧ f (8 * j + 7) ≠ a) → m a = s.mem a := by
  -- by induction on the entries that are left; what one turn stores is not looked at again
  induction left with
  | zero =>
    intro i ready s h hn
    refine ⟨s.mem, rfl, ?_, fun _ _ => rfl⟩
    intro j
    rw [if_neg (by omega)]
  | succ left ih =>
    intro i ready s h hn
    let x := s.st.revents (PollFd.decode (contents f (8 * n) s.mem) i)
    have hlen : 8 * i + 6 + (leBytes 2 x).length ≤ 8 * n := by
      rw [length_leBytes]
      omega
    have hblock : Block M (put f (8 * i + 6) (leBytes 2 x) s.mem) fds (8 * n) f := h.put hlen
    have hturn : ∀ j, PollFd.decode (contents f (8 * n) (put f (8 * i + 6) (leBytes 2 x) s.mem)) j =
        if j = i then { PollFd.decode (contents f (8 * n) s.mem) j with revents := x }
        else PollFd.decode (contents f (8 * n) s.mem) j := by
      intro j
      rw [contents_put h.inj hlen]
      exact PollFd.decode_overlay (length_contents _ _ _) (by omega) (Io.revents_lt _ _) j
    obtain ⟨m, hrun, hdecode, hrest⟩ := @ih (i + 1)
      (if s.st.poll_ready (PollFd.decode (contents f (8 * n) s.mem) i).fd then ready + 1 else ready)
      { s with mem := put f (8 * i + 6) (leBytes 2 x) s.mem } hblock (by omega)
    refine ⟨m, ?_, ?_, ?_⟩
    · rw [run_ppoll_turn h (by omega), hrun, List.range'_succ, List.countP_cons]
      congr 1
      have hlater : (List.range' (i + 1) left).countP (fun j => s.st.poll_ready
          (PollFd.decode (contents f (8 * n) (put f (8 * i + 6) (leBytes 2 x) s.mem)) j).fd) =
          (List.range' (i + 1) left).countP (fun j => s.st.poll_ready
            (PollFd.decode (contents f (8 * n) s.mem) j).fd) := by
        apply List.countP_congr
        intro j hj
        rw [hturn j]
        have hne : j ≠ i := by
          have := (List.mem_range'_1.mp hj).1
          omega
        rw [if_neg hne]
      rw [hlater]
      split <;> omega
    · intro j
      rw [hdecode j, hturn j]
      by_cases hj : j = i
      · rw [if_neg (by omega), if_pos hj, if_pos (by omega), hj]
        rfl
      · by_cases hlater : i + 1 ≤ j ∧ j < n
        · rw [if_pos hlater, if_neg hj, if_pos (by omega)]
        · rw [if_neg hlater, if_neg hj, if_neg (by omega)]
    · intro a ha
      rw [hrest a fun j hij hjn => ha j (by omega) hjn]
      apply put_off
      intro k hk
      rw [length_leBytes] at hk
      have hpair := ha i le_rfl (by omega)
      obtain rfl | rfl : k = 0 ∨ k = 1 := by omega
      · exact hpair.1
      · exact hpair.2

end Loop

/-! ## Section 3: The call -/

/-- The array of `n` entries after a call that returned `r`. -/
structure PollResult (f : Nat → Nat) (n : Nat) (m m' : Mem) (r : Int) : Prop where
  /-- Only the `revents` fields are written. -/
  writes : ∀ a, (∀ i, i < n → f (8 * i + 6) ≠ a ∧ f (8 * i + 7) ≠ a) → m' a = m a
  /-- The entries with an answer are counted. -/
  count : r = (List.range n).countP fun i => (PollFd.decode (contents f (8 * n) m') i).revents ≠ 0
  /-- The answer is a part of POLLIN and POLLOUT as far as they were requested. -/
  subset : ∀ i, i < n → (PollFd.decode (contents f (8 * n) m') i).revents &&&
    ((PollFd.decode (contents f (8 * n) m) i).events &&& 5) =
      (PollFd.decode (contents f (8 * n) m') i).revents
  /-- An entry with a negative descriptor has no answer. -/
  ignored : ∀ i, i < n → (PollFd.decode (contents f (8 * n) m) i).fd < 0 →
    (PollFd.decode (contents f (8 * n) m') i).revents = 0

/-- The call returns, changes nothing but the array, and leaves it as described. -/
def PollRight (M : Machine HeapAllocator Halt) (s : St HeapAllocator Io) (fds : Ptr) (n : Nat) (f : Nat → Nat) : Prop :=
  ∃ r m, run M (sys_ppoll fds n) s = .ok r { s with mem := m } ∧ PollResult f n s.mem m r

/-- No descriptor is negative, and every entry that is ready asks for POLLIN or POLLOUT. -/
def PollCond (io : Io) (v : List UInt8) (n : Nat) : Prop :=
  ∀ i, i < n → 0 ≤ (PollFd.decode v i).fd ∧
    (io.poll_ready (PollFd.decode v i).fd = true → (PollFd.decode v i).events &&& 5 ≠ 0)

/-- An array in physical memory has fewer than `2 ^ 31` entries. -/
theorem poll_entries_lt {M : Machine HeapAllocator Halt} {m : Mem} {fds : Ptr} {n : Nat} {f : Nat → Nat}
    (h : Block M m fds (8 * n) f) (hram : ∀ i, i < 8 * n → f i < 0x8800_0000) : n < 2 ^ 31 := by
  have hcard : (Finset.range (8 * n)).card ≤ (Finset.range 0x8800_0000).card := by
    apply Finset.card_le_card_of_injOn f
    · intro i hi
      simp only [Finset.coe_range, Set.mem_Iio] at hi ⊢
      exact hram i hi
    · intro i hi j hj hij
      simp only [Finset.coe_range, Set.mem_Iio] at hi hj
      exact h.inj i j hi hj hij
  rw [Finset.card_range, Finset.card_range] at hcard
  omega

theorem i32_of_lt {v : Nat} (h : v < 2 ^ 31) : i32 v = v := by
  have hv : v % 2 ^ 32 = v := Nat.mod_eq_of_lt (by omega)
  rw [i32, BitVec.toInt_eq_toNat_of_lt]
  · rw [BitVec.toNat_ofNat, hv]
  · rw [BitVec.toNat_ofNat, hv]
    omega

/-- **`ppoll`** on an array: the number of ready entries, and an answer for each. -/
theorem run_ppoll {M : Machine HeapAllocator Halt} {s : St HeapAllocator Io} {fds : Ptr} {n : Nat} {f : Nat → Nat}
    (h : Block M s.mem fds (8 * n) f) (hram : ∀ i, i < 8 * n → f i < 0x8800_0000) : ∃ m,
      run M (sys_ppoll fds n) s = .ok ((List.range n).countP
        fun i => s.st.poll_ready (PollFd.decode (contents f (8 * n) s.mem) i).fd : Nat) { s with mem := m } ∧
      (∀ i, i < n → PollFd.decode (contents f (8 * n) m) i =
        s.st.answer (PollFd.decode (contents f (8 * n) s.mem) i)) ∧
      ∀ a, (∀ i, i < n → f (8 * i + 6) ≠ a ∧ f (8 * i + 7) ≠ a) → m a = s.mem a := by
  obtain ⟨m, hrun, hdecode, hrest⟩ := @run_ppoll_loop M fds n f n 0 0 s h (by omega)
  rw [Nat.mul_zero, Ptr.add_zero h.addr_lt, Nat.zero_add, ← List.range_eq_range'] at hrun
  refine ⟨m, ?_, ?_, ?_⟩
  · have hcount : (List.range n).countP
        (fun i => s.st.poll_ready (PollFd.decode (contents f (8 * n) s.mem) i).fd) < 2 ^ 31 :=
      lt_of_le_of_lt (List.countP_le_length.trans (List.length_range).le) (poll_entries_lt h hram)
    rw [sys_ppoll, run_bind_of_ok _ hrun, i32_of_lt hcount, run_pure]
    congr 1
    split <;> omega
  · intro i hi
    rw [hdecode i, if_pos ⟨Nat.zero_le i, hi⟩]
  · intro a ha
    exact hrest a fun j _ hj => ha j hj

/-- **Polling.**  For an array of any length in physical memory, `ppoll` writes
    the `revents` fields only, returns the number of entries with an answer,
    answers with requested events, and ignores negative descriptors, if and only
    if no descriptor is negative and every entry that is ready asks for POLLIN or
    POLLOUT. -/
theorem ppoll_right_iff (M : Machine HeapAllocator Halt) (s : St HeapAllocator Io) (fds : Ptr) (n : Nat)
    (f : Nat → Nat) (hblock : Block M s.mem fds (8 * n) f) (hram : ∀ i, i < 8 * n → f i < 0x8800_0000) :
    PollRight M s fds n f ↔ PollCond s.st (contents f (8 * n) s.mem) n := by
  obtain ⟨m, hrun, hdecode, hrest⟩ := run_ppoll hblock hram
  let e := PollFd.decode (contents f (8 * n) s.mem)
  -- the entries with an answer are those that are ready and ask for a known event
  have hcount : (List.range n).countP (fun i => (PollFd.decode (contents f (8 * n) m) i).revents ≠ 0) =
      ((List.range n).filter fun i => s.st.poll_ready (e i).fd).countP fun i => (e i).events &&& 5 ≠ 0 := by
    rw [List.countP_filter]
    apply List.countP_congr
    intro i hi
    rw [hdecode i (List.mem_range.mp hi)]
    by_cases hr : s.st.poll_ready (e i).fd = true
    · simp [Io.answer, Io.revents, hr, e]
    · simp [Io.answer, Io.revents, hr, e]
  constructor
  · intro h
    obtain ⟨r, m', hrun', hres⟩ := h
    rw [hrun] at hrun'
    obtain ⟨rfl, hst⟩ := EStateM.Result.ok.inj hrun'
    obtain rfl : m = m' := congrArg St.mem hst
    -- so the count is right just if every ready entry asks for one
    have hall := hres.count
    rw [hcount, Nat.cast_inj, List.countP_eq_length_filter, eq_comm, List.countP_eq_length] at hall
    have hasks : ∀ i, i < n → s.st.poll_ready (e i).fd = true → (e i).events &&& 5 ≠ 0 := by
      intro i hi hr
      have := hall i (List.mem_filter.mpr ⟨List.mem_range.mpr hi, hr⟩)
      simpa using this
    intro i hi
    refine ⟨?_, hasks i hi⟩
    by_contra hneg
    have hneg : (e i).fd < 0 := not_le.mp hneg
    -- a negative descriptor is ready, asks for an event and gets it as an answer
    have hready : s.st.poll_ready (e i).fd = true := by
      simp only [Io.poll_ready, Bool.or_eq_true, decide_eq_true_eq]
      omega
    have hzero := hres.ignored i hi hneg
    rw [hdecode i hi] at hzero
    have hanswer : (s.st.answer (e i)).revents = (e i).events &&& 5 := if_pos hready
    exact hasks i hi hready (hanswer.symm.trans hzero)
  · intro hcond
    refine ⟨_, m, hrun, ⟨hrest, ?_, ?_, ?_⟩⟩
    · rw [hcount, Nat.cast_inj, List.countP_eq_length_filter, eq_comm, List.countP_eq_length]
      intro i hi
      obtain ⟨hi, hr⟩ := List.mem_filter.mp hi
      simpa using (hcond i (List.mem_range.mp hi)).2 hr
    · intro i hi
      rw [hdecode i hi]
      simp only [Io.answer, Io.revents]
      split
      · rw [Nat.and_self]
      · rw [Nat.zero_and]
    · intro i hi hneg
      exact absurd hneg (by have := (hcond i hi).1; omega)

/-- User memory with one entry at address 0. -/
def pollMem (fd events : Nat) : Mem := blit onePage 16384 (leBytes 4 fd ++ leBytes 2 events ++ leBytes 2 0)

theorem pollMem_block (fd events : Nat) :
    Block (machine 1) (pollMem fd events) (user 0) (8 * 1) (fun i => 16384 + (0 + i)) :=
  page_block (fun _ ha => blit_out (Or.inl ha)) (by decide)

/-- Standard output is polled for POLLOUT. -/
theorem ppoll_right_stdout :
    PollRight (machine 1) ⟨pollMem 1 4, init_heap, Io.boot Fs.noBlobs⟩ (user 0) 1 (fun i => 16384 + (0 + i)) := by
  apply (ppoll_right_iff _ _ _ _ _ (pollMem_block 1 4) (by intro i hi; omega)).mpr
  intro i hi
  obtain rfl : i = 0 := by omega
  decide +kernel

/-- **Counterexample**: an entry with descriptor -1 that asks for POLLIN is
    counted and gets POLLIN as its answer. -/
theorem ppoll_counts_negative :
    (∃ m, run (machine 1) (sys_ppoll (user 0) 1) ⟨pollMem (2 ^ 32 - 1) 1, init_heap, Io.boot Fs.noBlobs⟩ =
        .ok 1 ⟨m, init_heap, Io.boot Fs.noBlobs⟩ ∧
      PollFd.decode (contents (fun i => 16384 + (0 + i)) 8 m) 0 = ⟨-1, 1, 1⟩) ∧
    ¬ PollRight (machine 1) ⟨pollMem (2 ^ 32 - 1) 1, init_heap, Io.boot Fs.noBlobs⟩ (user 0) 1
      (fun i => 16384 + (0 + i)) := by
  have hram : ∀ i, i < 8 * 1 → 16384 + (0 + i) < 0x8800_0000 := by
    intro i hi
    omega
  have hentry : PollFd.decode (contents (fun i => 16384 + (0 + i)) (8 * 1) (pollMem (2 ^ 32 - 1) 1)) 0 =
      ⟨-1, 1, 0⟩ := by decide +kernel
  obtain ⟨m, hrun, hdecode, -⟩ := run_ppoll (s := ⟨pollMem (2 ^ 32 - 1) 1, init_heap, Io.boot Fs.noBlobs⟩)
    (pollMem_block (2 ^ 32 - 1) 1) hram
  have hanswer := hdecode 0 (by decide)
  dsimp only at hanswer
  rw [hentry] at hanswer
  refine ⟨⟨m, hrun.trans ?_, hanswer.trans (by decide)⟩, ?_⟩
  · rw [List.range_one, List.countP_singleton]
    dsimp only
    rw [hentry]
    rfl
  · intro hright
    obtain ⟨r, m', hrun', hres⟩ := hright
    rw [hrun] at hrun'
    obtain ⟨-, hst⟩ := EStateM.Result.ok.inj hrun'
    obtain rfl : m = m' := congrArg St.mem hst
    have hzero := hres.ignored 0 (by decide) (by dsimp only; rw [hentry]; decide)
    rw [hanswer] at hzero
    exact absurd hzero (by decide)

end Rvos
