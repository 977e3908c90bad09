import Rvos.Io.Inodes

/-! # Writing to the console

    `sys_write` on descriptors 1 and 2 takes each buffer for text: bytes that are
    not UTF-8 on their own are replaced by `<invalid utf8>`, and the length of
    the buffer is returned all the same.

    * `shown_flatten_iff` : what is shown of some chunks is their concatenation
      exactly if each is valid on its own.  A replacement never goes unnoticed,
      also not by what other chunks show: it is plain ASCII, and a chunk that is
      replaced is not.
    * `console_output_iff` : so the console gets what was written, and the counts
      are right, exactly if each chunk is valid UTF-8 and a call's total fits the
      return value. -/

namespace Rvos

open Access Access.Code ByteMem Usize

/-! ## Section 1: Text -/

/-- What the console shows for a buffer. -/
def shown (c : List UInt8) : List UInt8 := if utf8_valid c then c else utf8 "<invalid utf8>"

/-- The bytes that are not ASCII. -/
def highs (bs : List UInt8) : Nat := bs.countP fun b => 0x80 ≤ b

theorem highs_append (bs bs' : List UInt8) : highs (bs ++ bs') = highs bs + highs bs' := List.countP_append

/-- ASCII is valid. -/
theorem utf8_valid_ascii {bs : List UInt8} (h : highs bs = 0) : utf8_valid bs = true := by
  unfold utf8_valid
  induction bs with
  | nil => rfl
  | cons b bs ih =>
    have hb : b < 0x80 := by
      by_contra hb
      have := List.countP_eq_zero.mp h b List.mem_cons_self
      exact this (decide_eq_true (UInt8.not_lt.mp hb))
    rw [utf8_go, if_pos hb]
    apply ih
    rw [highs, List.countP_eq_zero] at h ⊢
    exact fun a ha => h a (List.mem_cons_of_mem _ ha)

/-- A buffer that is not shown as it is loses bytes that are not ASCII. -/
theorem highs_shown (c : List UInt8) :
    shown c = c ∧ utf8_valid c = true ∨ highs (shown c) < highs c ∧ utf8_valid c = false := by
  unfold shown
  by_cases hvalid : utf8_valid c = true
  · rw [if_pos hvalid]
    exact Or.inl ⟨rfl, hvalid⟩
  · right
    have hsome : highs c ≠ 0 := fun h => hvalid (utf8_valid_ascii h)
    have hnone : highs (utf8 "<invalid utf8>") = 0 := by decide +kernel
    rw [if_neg hvalid, hnone]
    exact ⟨Nat.pos_of_ne_zero hsome, by simpa using hvalid⟩

theorem highs_flatMap_le (cs : List (List UInt8)) : highs (cs.flatMap shown) ≤ highs cs.flatten := by
  induction cs with
  | nil => exact Nat.le_refl _
  | cons c cs ih =>
    rw [List.flatMap_cons, List.flatten_cons, highs_append, highs_append]
    rcases highs_shown c with ⟨h, -⟩ | ⟨h, -⟩
    · rw [h]
      omega
    · omega

/-- **Splits.**  The chunks are shown as their concatenation exactly if each of them
    is valid. -/
theorem shown_flatten_iff (cs : List (List UInt8)) :
    cs.flatMap shown = cs.flatten ↔ ∀ c ∈ cs, utf8_valid c = true := by
  induction cs with
  | nil => simp
  | cons c cs ih =>
    rw [List.flatMap_cons, List.flatten_cons, List.forall_mem_cons, ← ih]
    rcases highs_shown c with ⟨h, hvalid⟩ | ⟨h, hinvalid⟩
    · rw [h]
      simp [hvalid]
    · -- the bytes lost here are found nowhere else
      have hle := highs_flatMap_le cs
      constructor
      · intro heq
        have := congrArg highs heq
        rw [highs_append, highs_append] at this
        omega
      · intro hvalid
        rw [hinvalid] at hvalid
        cases hvalid.1

/-! ## Section 2: Calls -/

/-- The buffers of an `iovec` array with `left` entries, as far as they are readable. -/
def gather (M : Machine HeapAllocator Halt) (m : Mem) : (iov : Ptr) → (left : Nat) → Option (List (List UInt8))
  | _, 0 => some []
  | iov, left + 1 =>
    (M.loads m iov 8).bind fun base =>
      (M.loads m (iov.add 8) 8).bind fun len =>
        (M.loads m ⟨leNat base, false⟩ (leNat len)).bind fun chunk =>
          (gather M m (iov.add 16) left).map (chunk :: ·)

/-- A call that writes, with its arguments as in the registers. -/
inductive WriteCall where
  | write (buf count : Nat)
  | writev (iov iovcnt : Nat)

def WriteCall.code (env : Env) (fd : Int) : WriteCall → IoM Int
  | write buf count => sys_write env fd (user buf) count
  | writev iov iovcnt => sys_writev env fd (user iov) iovcnt

/-- The chunks that the caller wants to be written. -/
def WriteCall.chunks (root : Nat) (m : Mem) : WriteCall → Option (List (List UInt8))
  | write buf count => ((machine root).loads m (user buf) count).map ([·])
  | writev iov iovcnt => gather (machine root) m (user iov) iovcnt

section Calls

variable {root : Nat} {m : Mem} {s : St HeapAllocator Io} {fd : Int} {env : Env}

/-- Every byte of a readable range may be loaded. -/
theorem loads_at {M : Machine HeapAllocator Halt} {n : Nat} : ∀ {va : Nat} {bs : List UInt8},
    va < 2 ^ 64 → M.loads m (user va) n = some bs → ∀ i, i < n → M.tr m false (wadd va i) ≠ none := by
  induction n with
  | zero => exact fun _ _ i hi => absurd hi (Nat.not_lt_zero i)
  | succ n ih =>
    intro va bs hva h i hi
    obtain ⟨a, hat, h⟩ := Option.bind_eq_some_iff.mp h
    obtain ⟨bs', hbs', -⟩ := Option.map_eq_some_iff.mp h
    cases i with
    | zero =>
      rw [wadd_of_lt (show va + 0 < 2 ^ 64 by omega), Nat.add_zero]
      have hat : M.tr m false va = some a := hat
      rw [hat]
      exact Option.some_ne_none a
    | succ i =>
      have hrest := ih (wadd_lt va 1) hbs' i (by omega)
      have hsum : wadd (wadd va 1) i = wadd va (i + 1) := by
        simp only [wadd]
        omega
      rwa [hsum] at hrest

/-- A readable range is shorter than half the address space: it has to stay between
    the addresses that are not canonical. -/
theorem loads_short {va n : Nat} {bs : List UInt8} (h : (machine root).loads m (user va) n = some bs) :
    n < 2 ^ 63 := by
  by_contra hn
  obtain ⟨n, rfl⟩ : ∃ k, n = k + 1 := ⟨n - 1, by omega⟩
  have hva : va < 2 ^ 64 := by
    obtain ⟨a, hat, -⟩ := Option.bind_eq_some_iff.mp h
    have hat : hw_translate m root false va = some a := hat
    have hc := canonical_of_translate (by rw [hat]; simp : hw_translate m root false va ≠ none)
    simp only [canonical, Bool.or_eq_true, Bool.and_eq_true, decide_eq_true_eq] at hc
    omega
  -- one of two addresses in the middle is among the first `2 ^ 63`
  have hmiddle : ∀ x, 2 ^ 38 ≤ x → x < 2 ^ 64 - 2 ^ 38 → 2 ^ 63 ≤ (x + 2 ^ 64 - va) % 2 ^ 64 := by
    intro x hlo hhi
    by_contra hlt
    have hc := canonical_of_translate (loads_at hva h ((x + 2 ^ 64 - va) % 2 ^ 64) (by omega))
    have hx : wadd va ((x + 2 ^ 64 - va) % 2 ^ 64) = x := by
      simp only [wadd]
      omega
    rw [hx] at hc
    simp only [canonical, Bool.or_eq_true, Bool.and_eq_true, decide_eq_true_eq] at hc
    omega
  have h1 := hmiddle (2 ^ 38) (by decide) (by decide)
  have h2 := hmiddle (2 ^ 38 + 2 ^ 63) (by decide) (by decide)
  omega

/-- The statics after more output. -/
def Io.printed (io : Io) (bs : List UInt8) : Io := { io with uart_out := io.uart_out ++ bs }

theorem printed_printed (io : Io) (bs bs' : List UInt8) :
    (io.printed bs).printed bs' = io.printed (bs ++ bs') := by
  simp [Io.printed]

/-- Writing a readable buffer to the console. -/
theorem run_write_console (env : Env) {M : Machine HeapAllocator Halt} {buf : Ptr} {count : Nat} {bs : List UInt8}
    (hfd : fd = 1 ∨ fd = 2) (h : M.loads s.mem buf count = some bs) :
    run M (sys_write env fd buf count) s = .ok (toIsize count) { s with st := s.st.printed (shown bs) } := by
  have hload : run M (Code.loadBytes buf count) s = .ok bs s := (run_loadBytes_iff M).mpr ⟨rfl, h⟩
  unfold sys_write
  rw [if_pos hfd, run_bind_of_ok _ hload]
  rfl

/-- Wrapping before an addition or after it is the same. -/
theorem isize_isize_add (i j : Int) : isize (isize i + j) = isize (i + j) := by
  unfold isize
  rw [ofIsize_toIsize_add]
  congr 1
  have h1 := ofIsize_eq i
  have h2 := ofIsize_eq (ofIsize i + j)
  have h3 := ofIsize_eq (i + j)
  omega

theorem isize_isize (i : Int) : isize (isize i) = isize i := by
  simpa using isize_isize_add i 0

theorem isize_eq_iff (n : Nat) : isize n = n ↔ n < 2 ^ 63 := by
  have hlt := ofIsize_lt n
  have hmod := ofIsize_eq n
  have hsign := toIsize_eq hlt
  unfold isize
  constructor
  · intro h
    split at hsign <;> omega
  · intro h
    rw [hsign, if_pos (by omega)]
    omega

/-- The loop of `sys_writev` over readable buffers writes them all. -/
theorem run_writev_console (env : Env) (hfd : fd = 1 ∨ fd = 2) (heap : HeapAllocator) {left : Nat} :
    ∀ {iov : Ptr} {cs : List (List UInt8)}, gather (machine root) m iov left = some cs →
      ∀ (io : Io) (total : Int), isize total = total →
        run (machine root) (writev_loop env fd iov left total) ⟨m, heap, io⟩ =
          .ok (isize (total + cs.flatten.length)) ⟨m, heap, io.printed (cs.flatMap shown)⟩ := by
  induction left with
  | zero =>
    intro iov cs h io total htotal
    cases h
    simp [writev_loop, Io.printed, htotal]
  | succ left ih =>
    intro iov cs h io total htotal
    obtain ⟨base, hbase, h⟩ := Option.bind_eq_some_iff.mp h
    obtain ⟨len, hlen, h⟩ := Option.bind_eq_some_iff.mp h
    obtain ⟨chunk, hchunk, h⟩ := Option.bind_eq_some_iff.mp h
    obtain ⟨rest, hrest, rfl⟩ := Option.map_eq_some_iff.mp h
    have hload1 : run (machine root) (Code.loadBytes iov 8) (⟨m, heap, io⟩ : St HeapAllocator Io) =
        .ok base ⟨m, heap, io⟩ := (run_loadBytes_iff _).mpr ⟨rfl, hbase⟩
    have hload2 : run (machine root) (Code.loadBytes (iov.add 8) 8) (⟨m, heap, io⟩ : St HeapAllocator Io) =
        .ok len ⟨m, heap, io⟩ := (run_loadBytes_iff _).mpr ⟨rfl, hlen⟩
    rw [writev_loop, run_bind_of_ok _ hload1, run_bind_of_ok _ hload2]
    have hsize := length_loads _ hchunk
    have hshort := loads_short hchunk
    by_cases hzero : leNat len = 0
    · -- an empty entry is skipped
      obtain rfl : chunk = [] := List.length_eq_zero_iff.mp (by omega)
      rw [if_pos hzero, ih hrest io total htotal]
      rfl
    · rw [if_neg hzero]
      rw [run_bind_of_ok _ (run_write_console env (s := ⟨m, heap, io⟩) hfd hchunk)]
      have hn : toIsize (leNat len) = leNat len := by
        rw [toIsize_eq (by omega), if_pos hshort]
      have hback : ofIsize ((leNat len : Nat) : Int) = leNat len := by
        have := ofIsize_eq ((leNat len : Nat) : Int)
        omega
      rw [hn, if_neg (by omega), hback, if_neg (Nat.lt_irrefl _)]
      have hnext := ih hrest (io.printed (shown chunk)) (isize (total + leNat len)) (isize_isize _)
      refine hnext.trans ?_
      rw [isize_isize_add, List.flatten_cons, List.length_append, hsize, Nat.cast_add, Int.add_assoc,
        printed_printed, List.flatMap_cons]

/-- **One call.**  With readable buffers it returns the number of bytes that it was
    given, wrapped, and shows each buffer. -/
theorem WriteCall.run_console (hfd : fd = 1 ∨ fd = 2) {call : WriteCall} {cs : List (List UInt8)}
    (h : call.chunks root s.mem = some cs) :
    run (machine root) (call.code env fd) s =
      .ok (isize cs.flatten.length) { s with st := s.st.printed (cs.flatMap shown) } := by
  cases call with
  | write buf count =>
    obtain ⟨bs, hbs, rfl⟩ := Option.map_eq_some_iff.mp h
    have hret : toIsize count = isize ([bs].flatten.length : Nat) := by
      have hback : ofIsize (count : Int) = count := by
        have := ofIsize_eq (count : Int)
        have := loads_short hbs
        omega
      simp only [List.flatten_cons, List.flatten_nil, List.append_nil, length_loads _ hbs, isize, hback]
    rw [WriteCall.code, run_write_console env hfd hbs, hret]
    simp
  | writev iov iovcnt =>
    have hrun := run_writev_console env hfd s.heap h s.st 0 rfl
    rw [Int.zero_add] at hrun
    exact hrun

end Calls

/-! ## Section 3: Runs -/

/-- A call to the console: what it finds, the chunks that are to be written, its
    result, and what it shows. -/
structure ConsoleLabel where
  root : Nat
  mem : Mem
  heap : HeapAllocator
  fd : Int
  call : WriteCall
  chunks : List (List UInt8)
  ret : Int
  emitted : List UInt8

/-- One returning call to the console, with chunks that it may read. -/
def ConsoleStep (env : Env) (io : Io) (l : ConsoleLabel) (io' : Io) : Prop :=
  (l.fd = 1 ∨ l.fd = 2) ∧ l.call.chunks l.root l.mem = some l.chunks ∧
    ∃ t, run (machine l.root) (l.call.code env l.fd) ⟨l.mem, l.heap, io⟩ = .ok l.ret t ∧ t.st = io' ∧
      io'.uart_out = io.uart_out ++ l.emitted

/-- What the call returns and shows. -/
structure ConsoleLabel.Spec (l : ConsoleLabel) : Prop where
  ret : l.ret = isize l.chunks.flatten.length
  emitted : l.emitted = l.chunks.flatMap shown

theorem ConsoleStep.spec {env : Env} {io io' : Io} {l : ConsoleLabel} (h : ConsoleStep env io l io') : l.Spec := by
  obtain ⟨hfd, hchunks, t, hrun, rfl, hout⟩ := h
  rw [WriteCall.run_console (s := ⟨l.mem, l.heap, io⟩) hfd hchunks] at hrun
  obtain ⟨hret, rfl⟩ := EStateM.Result.ok.inj hrun
  exact ⟨hret.symm, (List.append_cancel_left hout).symm⟩

/-- **Console.**  Calls with readable buffers return.  For all runs of such calls,
    whatever they find: every call returns the number of bytes it has shown, and
    all together show the concatenation of the chunks, exactly if each chunk is
    valid UTF-8 on its own and each call's total is below `2 ^ 63`. -/
theorem console_output_iff (env : Env) :
    (∀ root mem heap io fd (call : WriteCall) chunks, fd = 1 ∨ fd = 2 → call.chunks root mem = some chunks →
      ∃ r t, run (machine root) (call.code env fd) ⟨mem, heap, io⟩ = .ok r t) ∧
    ∀ io ls io', LTS.Steps (ConsoleStep env) io ls io' →
      ((∀ l ∈ ls, l.ret = l.emitted.length) ∧
          io'.uart_out = io.uart_out ++ (ls.flatMap ConsoleLabel.chunks).flatten ↔
        ∀ l ∈ ls, (∀ c ∈ l.chunks, utf8_valid c = true) ∧ l.chunks.flatten.length < 2 ^ 63) := by
  refine ⟨fun root mem heap io fd call chunks hfd hchunks =>
    ⟨_, _, WriteCall.run_console (s := ⟨mem, heap, io⟩) hfd hchunks⟩, ?_⟩
  intro io ls io' hrun
  obtain ⟨hout, hspec⟩ : io'.uart_out = io.uart_out ++ ls.flatMap ConsoleLabel.emitted ∧ ∀ l ∈ ls, l.Spec := by
    refine LTS.Steps.history (fun ls u => u.uart_out = io.uart_out ++ ls.flatMap ConsoleLabel.emitted ∧
      ∀ l ∈ ls, l.Spec) ?_ hrun ⟨by simp, by simp⟩
    intro ls u l v hu hst
    constructor
    · rw [hst.2.2.choose_spec.2.2, hu.1]
      simp
    · intro l' hl'
      rcases List.mem_append.mp hl' with hold | hnew
      · exact hu.2 l' hold
      · rw [List.mem_singleton.mp hnew]
        exact hst.spec
  have hshown : ls.flatMap ConsoleLabel.emitted = (ls.flatMap ConsoleLabel.chunks).flatMap shown := by
    rw [List.flatMap_assoc]
    exact List.flatMap_congr fun l hl => (hspec l hl).emitted
  rw [hout, hshown, List.append_cancel_left_eq, shown_flatten_iff]
  -- the calls one by one: with valid chunks each of them shows what it was given
  have hone : ∀ l ∈ ls, (∀ c ∈ l.chunks, utf8_valid c = true) →
      (l.ret = l.emitted.length ↔ l.chunks.flatten.length < 2 ^ 63) := by
    intro l hl hvalid
    rw [(hspec l hl).ret, (hspec l hl).emitted, (shown_flatten_iff _).mpr hvalid, isize_eq_iff]
  constructor
  · rintro ⟨hret, hvalid⟩ l hl
    have hl' : ∀ c ∈ l.chunks, utf8_valid c = true := fun c hc =>
      hvalid c (List.mem_flatMap.mpr ⟨l, hl, hc⟩)
    exact ⟨hl', (hone l hl hl').mp (hret l hl)⟩
  · intro h
    refine ⟨fun l hl => (hone l hl (h l hl).1).mpr (h l hl).2, ?_⟩
    intro c hc
    obtain ⟨l, hl, hcl⟩ := List.mem_flatMap.mp hc
    exact (h l hl).1 c hcl

/-- User memory with two bytes of text that are one character. -/
def accentMem : Mem := blit onePage 16384 [0xc3, 0xa9]

/-- A write of `count` of these bytes from `buf` on. -/
def accentLabel (buf count : Nat) (chunk : List UInt8) : ConsoleLabel :=
  ⟨1, accentMem, init_heap, 1, .write buf count, [chunk], count, shown chunk⟩

theorem accent_step (env : Env) (io : Io) (buf count : Nat) (chunk : List UInt8)
    (hchunk : (machine 1).loads accentMem (user buf) count = some chunk) :
    ConsoleStep env io (accentLabel buf count chunk) (io.printed (shown chunk)) := by
  have hrun := run_write_console env (s := ⟨accentMem, init_heap, io⟩) (Or.inl (Eq.refl (1 : Int))) hchunk
  rw [toIsize_eq (by have := loads_short hchunk; omega), if_pos (loads_short hchunk)] at hrun
  refine ⟨Or.inl rfl, ?_, _, hrun, rfl, rfl⟩
  show Option.map _ ((machine 1).loads accentMem (user buf) count) = _
  rw [hchunk]
  rfl

/-- The character in one write. -/
theorem console_output_accent : ∃ io', ConsoleStep .idle (Io.boot Fs.noBlobs) (accentLabel 0 2 [0xc3, 0xa9]) io' ∧
    (∀ l ∈ [accentLabel 0 2 [0xc3, 0xa9]], l.ret = l.emitted.length) ∧
    io'.uart_out = (Io.boot Fs.noBlobs).uart_out ++
      ([accentLabel 0 2 [0xc3, 0xa9]].flatMap ConsoleLabel.chunks).flatten := by
  have hstep := accent_step .idle (Io.boot Fs.noBlobs) 0 2 [0xc3, 0xa9] (by decide +kernel)
  refine ⟨_, hstep, ((console_output_iff .idle).2 _ _ _ (.single hstep)).mpr ?_⟩
  intro l hl
  rw [List.mem_singleton.mp hl]
  exact ⟨by decide +kernel, by decide⟩

/-- **Counterexample**: the character in two writes of one byte.  Each call returns
    1, and the console shows `<invalid utf8>` twice. -/
theorem split_character_lost : ∃ io1 io2,
    ConsoleStep .idle (Io.boot Fs.noBlobs) (accentLabel 0 1 [0xc3]) io1 ∧
      ConsoleStep .idle io1 (accentLabel 1 1 [0xa9]) io2 ∧
      io2.uart_out = utf8 "<invalid utf8><invalid utf8>" := by
  refine ⟨_, _, accent_step .idle _ 0 1 [0xc3] (by decide +kernel),
    accent_step .idle _ 1 1 [0xa9] (by decide +kernel), ?_⟩
  show [] ++ shown [0xc3] ++ shown [0xa9] = _
  decide +kernel

end Rvos
