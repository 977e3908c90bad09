import Rvos.Kernel.Proc

/-! # System calls on processes and memory, and the dispatcher (`syscall.rs`)

    `dispatch` is the table of all system calls.  Input and output calls run
    as `IoM` programs; the others change processes or address spaces. -/

namespace Rvos

open Access ByteMem Usize

/-! ## Section 1: Memory -/

/-- Map a zero-filled user page at `va` unless the address is mapped; without a
    frame the page stays unmapped. -/
def map_if_absent (pt : PageTable) (va : Nat) (flags : PTEFlags) : MmM Unit := do
  if (pt.translate (← get).mem va).isNone then
    match ← alloc_page with
    | some pa => pt.map va pa flags
    | none => return ()

/-- Round up to a page, wrapping. -/
def pageUp (a : Nat) : Nat := wadd a 0xfff &&& bnot 0xfff

def sys_brk (addr : Nat) : KM Int := do
  let k ← get
  match k.current with
  | none => return -1
  | some proc =>
    let brk := if proc.brk = 0 then 0x10000 else proc.brk
    modify_proc k.current_pid fun p => { p with brk := brk }
    if addr = 0 then
      return toIsize brk
    if addr > brk then
      KM.mm ((pages (pageUp brk) (pageUp addr)).forM fun page =>
        map_if_absent proc.page_table page (.U ||| .R ||| .W))
    modify_proc k.current_pid fun p => { p with brk := addr }
    return toIsize addr

/-- The page flags for a protection argument. -/
def prot_flags (prot : Int) : PTEFlags :=
  .U ||| (if ofIsize prot &&& 1 != 0 then .R else 0) |||
    (if ofIsize prot &&& 2 != 0 then .W else 0) ||| (if ofIsize prot &&& 4 != 0 then .X else 0)

/-- What `sys_mmap` stores at `ret`: zeros, and the file's bytes if the mapping
    is backed by a descriptor. -/
def mmap_fill (ret len aligned_len : Nat) (flags fd : Int) (offset : Nat) : IoM Unit := do
  Code.storeBytes ⟨ret, false⟩ (List.replicate aligned_len 0)
  if ofIsize flags &&& 0x20 = 0 ∧ fd ≥ 0 then
    match (← get).fd_table.get (ofIsize fd) with
    | none => return ()
    | some of =>
      let bytes ← read_file of.inode len offset
      Code.storeBytes ⟨ret, false⟩ bytes

def sys_mmap (addr len : Nat) (prot flags fd : Int) (offset : Nat) : KM Int := do
  let k ← get
  let base := if k.mmap_base = 0 then 0x5000_0000 else k.mmap_base
  let aligned_len := pageUp len
  -- `MAP_FIXED`
  let fixed := ofIsize flags &&& 0x10 != 0
  let ret := if fixed then addr else base
  modify fun k => { k with mmap_base := if fixed then base else wadd base aligned_len }
  match k.current with
  | none => pure ()
  | some proc =>
    KM.mm ((pages 0 aligned_len).forM fun page =>
      map_if_absent proc.page_table (wadd ret page) (prot_flags prot))
  KM.io (mmap_fill ret len aligned_len flags fd offset)
  return toIsize ret

/-! ## Section 2: Reading user memory by the page table

    `sys_execve` walks the caller's table in software and reads the physical
    address it finds.  The reads are recorded as pairs of the user's address
    and the physical one. -/

/-- A byte read for a user address. -/
structure UserRead where
  va : Nat
  pa : Nat
  deriving DecidableEq, Repr

abbrev ReadM (α : Type) : Type := StateM (List UserRead) α

/-- The address that the caller's table gives for `addr`. -/
def Kernel.translate (k : Kernel) (addr : Nat) : Option Nat :=
  k.current.bind fun proc => proc.page_table.translate k.mm.mem addr

/-- `read_user_u64`: eight bytes from one translated address on. -/
def read_user_u64 (k : Kernel) (addr : Nat) : ReadM (Option Nat) := do
  match k.translate addr with
  | none => return none
  | some pa =>
    modify (· ++ (List.range 8).map fun i => ⟨wadd addr i, pa + i⟩)
    return some (readLE k.mm.mem pa 8)

def read_user_byte (k : Kernel) (addr : Nat) : ReadM (Option UInt8) := do
  match k.translate addr with
  | none => return none
  | some pa =>
    modify (· ++ [⟨addr, pa⟩])
    return some (k.mm.mem pa)

/-- `b as char`, in UTF-8. -/
def latin1 (b : UInt8) : List UInt8 :=
  if b < 0x80 then [b] else [(b >>> 6) ||| 0xc0, (b &&& 0x3f) ||| 0x80]

/-- The loop of `read_user_str`. -/
def read_user_str_go (k : Kernel) : (fuel addr : Nat) → ReadM (Option Path)
  | 0, _ => return none
  | fuel + 1, addr => do
    match ← read_user_byte k addr with
    | none => return none
    | some b =>
      if b = 0 then
        return some []
      return (← read_user_str_go k fuel (wadd addr 1)).map (latin1 b ++ ·)

/-- `read_user_str`: at most 4096 bytes before the zero. -/
def read_user_str (k : Kernel) (addr : Nat) : ReadM (Option Path) := read_user_str_go k 4097 addr

/-- The loop that collects `argv` or `envp`: it ends at a null pointer, at
    anything unreadable, or after 129 strings. -/
def read_strings (k : Kernel) : (fuel arr : Nat) → ReadM (List Path)
  | 0, _ => return []
  | fuel + 1, arr => do
    match ← read_user_u64 k arr with
    | none => return []
    | some ptr =>
      if ptr = 0 then
        return []
      match ← read_user_str k ptr with
      | none => return []
      | some s => return s :: (← read_strings k fuel (wadd arr 8))

/-- What `sys_execve` reads: the path, and the two lists if there is one. -/
def execve_args (k : Kernel) (path argv envp : Nat) :
    ReadM (Option (Path × List Path × List Path)) := do
  match ← read_user_str k path with
  | none => return none
  | some path =>
    let argv_strs ← read_strings k 129 argv
    let envp_strs ← read_strings k 129 envp
    return some (path, argv_strs, envp_strs)

/-! ## Section 3: Processes -/

/-- The environment always names a search path. -/
def with_path (envp : List Path) : List Path :=
  if envp.any fun s => (utf8 "PATH=").isPrefixOf s then envp else envp ++ [utf8 "PATH=/bin"]

def sys_execve (env : Env) (path argv envp : Nat) : KM Int := do
  let k ← get
  match (execve_args k path argv envp).run' [] with
  | none => return -1
  | some (path, argv_strs, envp_strs) =>
    match k.io.fs.get_file_data path with
    | none =>
      warn (utf8 "sys_execve: file not found: " ++ path)
      return -2
    | some data =>
      match ← exec_process env k.current_pid data argv_strs (with_path envp_strs) with
      | none => return -1
      | some sp =>
        modify fun k => match k.current with
          | none => k
          | some proc =>
            let tf := k.current_trap_frame
            { k with
              current_trap_frame := { tf with
                sepc := proc.trap_frame.sepc
                regs := setReg (setReg tf.regs 2 (BitVec.ofNat 64 sp)) 10
                  (BitVec.ofNat 64 argv_strs.length) }
              -- the new table is used from here on
              satp := proc.page_table.root_ppn }
        return 0

def sys_clone (stack : Nat) : KM Int := do
  match ← fork_process (← get).current_trap_frame with
  | none => return -1
  | some child_pid =>
    if stack ≠ 0 then
      modify_proc child_pid fun child => { child with
        trap_frame := { child.trap_frame with
          regs := setReg child.trap_frame.regs 2 (BitVec.ofNat 64 stack) } }
    return child_pid

/-- The first zombie child of the current process that the argument allows. -/
def Kernel.find_zombie (k : Kernel) (pid : Int) : Option (Nat × Process) :=
  k.procs.toList.find? fun (cpid, proc) =>
    proc.ppid == k.current_pid && proc.state == .Zombie && !(pid > 0 && cpid != ofIsize pid)

/-- The status word for an exit code. -/
def wait_status (code : Int) : Nat := ofIsize code % 256 * 256

def sys_wait4 (pid : Int) (wstatus : Nat) (options : Int) : KM Int := do
  match (← get).find_zombie pid with
  | some (zpid, proc) =>
    if wstatus ≠ 0 then
      KM.io (Code.storeBytes ⟨wstatus, false⟩ (word (wait_status proc.exit_code)))
    modify fun k => { k with procs := k.procs.erase zpid }
    return zpid
  | none => return if ofIsize options &&& 1 != 0 then 0 else -11

def sys_exit (code : Int) : KM Int := do
  exit_process code
  return 0

def sys_getpid : KM Int := do
  return (← get).current_pid

def sys_getppid : KM Int := do
  return match (← get).current with
    | some p => p.ppid
    | none => 0

/-- The child of a `clone` that was given a stack. -/
def Process.onStack (p : Process) (stack : Nat) : Process :=
  if stack ≠ 0 then
    { p with trap_frame := { p.trap_frame with
        regs := setReg p.trap_frame.regs 2 (BitVec.ofNat 64 stack) } }
  else p

/-- **Inversion of `sys_clone`.** -/
theorem sys_clone_cases {stack : Nat} {k k' : Kernel} {r : Int} (h : sys_clone stack k = .ok r k') :
    (r = -1 ∧ ∃ mm, ForkFails k mm ∧ k' = { k with mm := mm }) ∨
    (r = k.next_pid ∧ ∃ parent child_pt child_kstack mm1 mm2, k.current = some parent ∧
      parent.page_table.clone_user_space k.mm = .ok (some child_pt) mm1 ∧
      alloc_pages 2 mm1 = .ok (some child_kstack) mm2 ∧
      k'.mm = mm2 ∧ k'.next_pid = k.next_pid + 1 ∧
      (∀ pid, k'.procs[pid]? = if pid = k.next_pid then
        some ((parent.forked k.current_trap_frame k.next_pid k.current_pid child_pt
          child_kstack).onStack stack) else k.procs[pid]?) ∧
      k'.current_pid = k.current_pid ∧ k'.satp = k.satp ∧ k'.io = k.io ∧ k'.heap = k.heap ∧
      k'.mmap_base = k.mmap_base ∧ k'.current_trap_frame = k.current_trap_frame) := by
  unfold sys_clone at h
  rw [Prog.bind_run, Prog.get_run] at h
  obtain ⟨o, k1, hfork, h1⟩ := Prog.bind_eq_ok.mp h
  rcases fork_process_cases hfork with ⟨rfl, mm, hfail, rfl⟩ |
    ⟨rfl, parent, child_pt, child_kstack, mm1, mm2, hcur, hclone, hstack, rfl⟩
  · cases h1
    exact Or.inl ⟨rfl, mm, hfail, rfl⟩
  · right
    by_cases hs : stack = 0
    · simp only [hs, ne_eq, not_true_eq_false, if_false] at h1
      cases h1
      refine ⟨rfl, parent, child_pt, child_kstack, mm1, mm2, hcur, hclone, hstack, rfl, rfl, ?_, rfl,
        rfl, rfl, rfl, rfl, rfl⟩
      intro pid
      simp [Assoc.get_insert, Process.onStack, hs]
    · simp only [ne_eq, hs, not_false_eq_true, if_true] at h1
      cases h1
      refine ⟨rfl, parent, child_pt, child_kstack, mm1, mm2, hcur, hclone, hstack, rfl, rfl, ?_, rfl,
        rfl, rfl, rfl, rfl, rfl⟩
      intro pid
      rw [Assoc.get_modify, Assoc.get_insert]
      by_cases hp : pid = k.next_pid
      · simp [hp, Process.onStack, hs]
      · simp [hp]

/-- **Inversion of `sys_wait4`**: the first zombie is removed after its status
    has been stored, or there is none. -/
theorem sys_wait4_cases {pid options r : Int} {wstatus : Nat} {k k' : Kernel}
    (h : sys_wait4 pid wstatus options k = .ok r k') :
    (∃ z proc k1, k.find_zombie pid = some (z, proc) ∧ r = z ∧ (wstatus = 0 → k1 = k) ∧
      (wstatus ≠ 0 → KM.io (Code.storeBytes ⟨wstatus, false⟩ (word (wait_status proc.exit_code))) k =
        .ok () k1) ∧ k' = { k1 with procs := k1.procs.erase z }) ∨
    (k.find_zombie pid = none ∧ r = (if ofIsize options &&& 1 != 0 then 0 else -11) ∧ k' = k) := by
  unfold sys_wait4 at h
  rw [Prog.bind_run, Prog.get_run] at h
  cases hz : k.find_zombie pid with
  | none =>
    simp only [hz] at h
    cases h
    exact Or.inr ⟨rfl, rfl, rfl⟩
  | some zp =>
    obtain ⟨z, proc⟩ := zp
    simp only [hz] at h
    by_cases hw : wstatus = 0
    · simp only [hw, ne_eq, not_true_eq_false, if_false] at h
      cases h
      exact Or.inl ⟨z, proc, k, rfl, rfl, fun _ => rfl, fun hne => absurd hw hne, rfl⟩
    · simp only [ne_eq, hw, not_false_eq_true, if_true] at h
      obtain ⟨⟨⟩, k1, hstore, h⟩ := Prog.bind_eq_ok.mp h
      cases h
      exact Or.inl ⟨z, proc, k1, rfl, rfl, fun h0 => absurd h0 hw, fun _ => hstore, rfl⟩

/-- **Inversion of `sys_brk`** of a process: pages may be mapped, and the break
    is set. -/
theorem sys_brk_cases {addr : Nat} {k k' : Kernel} {r : Int} {proc : Process}
    (hcur : k.current = some proc) (h : sys_brk addr k = .ok r k') :
    ∃ mm b, k'.mm = mm ∧ k'.heap = k.heap ∧ k'.satp = k.satp ∧ k'.current_pid = k.current_pid ∧
      k'.io = k.io ∧ k'.current_trap_frame = k.current_trap_frame ∧
      (∀ q, k'.procs[q]? = if q = k.current_pid then some { proc with brk := b } else k.procs[q]?) ∧
      (mm = k.mm ∨ ∃ lo hi, ((pages lo hi).forM fun page =>
        map_if_absent proc.page_table page (.U ||| .R ||| .W)) k.mm = .ok ⟨⟩ mm) := by
  have hget : ∀ f : Process → Process, ∀ q, (k.procs.modify k.current_pid f)[q]? =
      if q = k.current_pid then some (f proc) else k.procs[q]? := by
    intro f q
    rw [Assoc.get_modify]
    split
    · next hq => rw [hq, show k.procs[k.current_pid]? = some proc from hcur]; rfl
    · rfl
  have hget2 : ∀ f g : Process → Process, ∀ q,
      ((k.procs.modify k.current_pid f).modify k.current_pid g)[q]? =
        if q = k.current_pid then some (g (f proc)) else k.procs[q]? := by
    intro f g q
    rw [Assoc.get_modify, hget]
    split <;> rfl
  unfold sys_brk at h
  rw [Prog.bind_run, Prog.get_run] at h
  simp only [hcur] at h
  generalize (if proc.brk = 0 then 0x10000 else proc.brk) = brk at h
  rw [Prog.bind_of_ok (modify_proc_run _ _ _)] at h
  split at h
  · cases h
    exact ⟨k.mm, brk, rfl, rfl, rfl, rfl, rfl, rfl, hget _, Or.inl rfl⟩
  · split at h
    · obtain ⟨⟨⟩, k1, hloop, h1⟩ := Prog.bind_eq_ok.mp h
      obtain ⟨mm, hmap, rfl⟩ := Prog.zoom_eq_ok.mp hloop
      cases h1
      exact ⟨mm, addr, rfl, rfl, rfl, rfl, rfl, rfl, hget2 _ _, Or.inr ⟨_, _, hmap⟩⟩
    · cases h
      exact ⟨k.mm, addr, rfl, rfl, rfl, rfl, rfl, rfl, hget2 _ _, Or.inl rfl⟩

/-- Where `sys_mmap` puts the mapping: at the address asked for if it is fixed,
    else at the running base. -/
def Kernel.mmap_at (k : Kernel) (addr : Nat) (flags : Int) : Nat :=
  if ofIsize flags &&& 0x10 != 0 then addr else if k.mmap_base = 0 then 0x5000_0000 else k.mmap_base

/-- **Inversion of `sys_mmap`** of a process: pages are mapped, then filled. -/
theorem sys_mmap_cases {addr len : Nat} {prot flags fd : Int} {offset : Nat} {k k' : Kernel} {r : Int}
    {proc : Process} (hcur : k.current = some proc)
    (h : sys_mmap addr len prot flags fd offset k = .ok r k') :
    ∃ mm base, ((pages 0 (pageUp len)).forM fun page =>
        map_if_absent proc.page_table (wadd (k.mmap_at addr flags) page) (prot_flags prot)) k.mm =
          .ok ⟨⟩ mm ∧
      KM.io (mmap_fill (k.mmap_at addr flags) len (pageUp len) flags fd offset)
        { k with mm := mm, mmap_base := base } = .ok () k' := by
  unfold sys_mmap at h
  rw [Prog.bind_run, Prog.get_run] at h
  simp only [hcur] at h
  rw [Prog.bind_of_ok (Prog.modify_run _ _)] at h
  obtain ⟨⟨⟩, k1, hloop, h1⟩ := Prog.bind_eq_ok.mp h
  obtain ⟨mm, hmap, rfl⟩ := Prog.zoom_eq_ok.mp hloop
  obtain ⟨⟨⟩, k2, hfill, h2⟩ := Prog.bind_eq_ok.mp h1
  cases h2
  exact ⟨mm, _, hmap, hfill⟩

/-- The kernel after `sys_execve` has put a new program in place: its registers
    and its table. -/
def Kernel.exec_enter (k : Kernel) (sp argc : Nat) : Kernel :=
  match k.current with
  | none => k
  | some proc =>
    let tf := k.current_trap_frame
    { k with
      current_trap_frame := { tf with
        sepc := proc.trap_frame.sepc
        regs := setReg (setReg tf.regs 2 (BitVec.ofNat 64 sp)) 10 (BitVec.ofNat 64 argc) }
      satp := proc.page_table.root_ppn }

/-- **Inversion of `sys_execve`**: nothing can be read or found, or the program
    is loaded, and then entered. -/
theorem sys_execve_cases {env : Env} {path argv envp : Nat} {k k' : Kernel} {r : Int}
    (h : sys_execve env path argv envp k = .ok r k') :
    (r < 0 ∧ ∃ io, k' = { k with io := io }) ∨
    ∃ name argv_strs envp_strs data o k1,
      (execve_args k path argv envp).run' [] = some (name, argv_strs, envp_strs) ∧
      k.io.fs.get_file_data name = some data ∧
      exec_process env k.current_pid data argv_strs (with_path envp_strs) k = .ok o k1 ∧
      ((o = none ∧ r = -1 ∧ k' = k1) ∨
        ∃ sp, o = some sp ∧ r = 0 ∧ k' = k1.exec_enter sp argv_strs.length) := by
  unfold sys_execve at h
  rw [Prog.bind_run, Prog.get_run] at h
  cases hargs : (execve_args k path argv envp).run' [] with
  | none =>
    simp only [hargs] at h
    cases h
    exact Or.inl ⟨by decide, k.io, rfl⟩
  | some args =>
    obtain ⟨name, argv_strs, envp_strs⟩ := args
    simp only [hargs] at h
    cases hdata : k.io.fs.get_file_data name with
    | none =>
      simp only [hdata] at h
      obtain ⟨⟨⟩, k1, hwarn, h⟩ := Prog.bind_eq_ok.mp h
      obtain ⟨s, hs, rfl⟩ := KM.io_eq_ok.mp hwarn
      cases h
      cases hs
      exact Or.inl ⟨by decide, _, rfl⟩
    | some data =>
      simp only [hdata] at h
      obtain ⟨o, k1, hexec, h⟩ := Prog.bind_eq_ok.mp h
      refine Or.inr ⟨name, argv_strs, envp_strs, data, o, k1, rfl, hdata, hexec, ?_⟩
      cases o with
      | none =>
        cases h
        exact Or.inl ⟨rfl, rfl, rfl⟩
      | some sp =>
        cases h
        exact Or.inr ⟨sp, rfl, rfl, rfl⟩

/-! ## Section 4: The dispatcher -/

/-- The six argument registers. -/
structure Args where
  a0 : Nat
  a1 : Nat
  a2 : Nat
  a3 : Nat
  a4 : Nat
  a5 : Nat
  deriving DecidableEq, Repr

/-- A user pointer. -/
def user (a : Nat) : Ptr := ⟨a, false⟩

/-- The calls that only use descriptors, files, sockets and user memory. -/
def io_call (env : Env) (num : Nat) (a : Args) : Option (IoM Int) :=
  match num with
  | 17 => some (sys_getcwd (user a.a0) a.a1)
  | 19 => some sys_eventfd2
  | 20 => some sys_epoll_create1
  | 21 => some (sys_epoll_ctl (toIsize a.a2) (user a.a3))
  | 22 => some (sys_epoll_pwait env (user a.a1) a.a2 (toIsize a.a3))
  | 23 => some (sys_dup2 (toIsize a.a0) (toIsize a.a1))
  | 24 => some (sys_dup2 (toIsize a.a0) (toIsize a.a1))
  | 25 => some (sys_fcntl (toIsize a.a0) (toIsize a.a1))
  | 29 => some (sys_ioctl (toIsize a.a0) (toIsize a.a1) (user a.a2))
  | 34 => some (sys_mkdirat (user a.a1))
  | 48 => some (sys_faccessat (user a.a1))
  | 56 => some (sys_openat (user a.a1) (toIsize a.a2))
  | 57 => some (sys_close (toIsize a.a0))
  | 59 => some (sys_pipe2 (user a.a0))
  | 61 => some (sys_getdents64 (toIsize a.a0) (user a.a1) a.a2)
  | 62 => some (sys_lseek (toIsize a.a0) (toIsize a.a1) (toIsize a.a2))
  | 63 => some (sys_read env (toIsize a.a0) (user a.a1) a.a2)
  | 64 => some (sys_write env (toIsize a.a0) (user a.a1) a.a2)
  | 66 => some (sys_writev env (toIsize a.a0) (user a.a1) a.a2)
  | 67 => some (sys_pread64 (toIsize a.a0) (user a.a1) a.a2 a.a3)
  | 68 => some (sys_pwrite64 (toIsize a.a0) (user a.a1) a.a2 a.a3)
  | 71 => some (sys_sendfile env (toIsize a.a0) (toIsize a.a1) a.a3)
  | 73 => some (sys_ppoll (user a.a0) a.a1)
  | 78 => some (sys_readlinkat (user a.a1) (user a.a2) a.a3)
  | 79 => some (sys_fstatat (user a.a1) (user a.a2))
  | 80 => some (sys_fstat (toIsize a.a0) (user a.a1))
  | 113 => some (sys_clock_gettime env (user a.a1))
  | 160 => some (sys_uname (user a.a0))
  | 163 => some (sys_getrlimit (toIsize a.a0) (user a.a1))
  | 198 => some (sys_socket (toIsize a.a0))
  | 199 => some (sys_socketpair (user a.a3))
  | 200 => some (sys_bind (toIsize a.a0))
  | 201 => some (sys_listen (toIsize a.a0))
  | 202 => some (sys_accept env (toIsize a.a0) (user a.a1) (user a.a2))
  | 203 => some (sys_connect (toIsize a.a0))
  | 206 => some (sys_sendto env (toIsize a.a0) (user a.a1) a.a2)
  | 207 => some (sys_recvfrom env (toIsize a.a0) (user a.a1) a.a2)
  | 208 => some (sys_setsockopt (toIsize a.a0))
  | 209 => some (sys_getsockopt (toIsize a.a0))
  | 210 => some (sys_shutdown (toIsize a.a0))
  | 212 => some (sys_recvmsg (toIsize a.a0) (user a.a1))
  | 242 => some (sys_accept env (toIsize a.a0) (user a.a1) (user a.a2))
  | 261 => some (sys_prlimit64 (toIsize a.a1) (user a.a3))
  | 278 => some (sys_getrandom (user a.a0) a.a1)
  | 291 => some (sys_statx (user a.a1) (user a.a4))
  | _ => none

/-- The calls that do nothing, with their result: ownership, signals, limits,
    groups, and the ones that pretend to succeed. -/
def constant_call (num : Nat) : Option Int :=
  match num with
  | 54 | 99 | 122 | 123 | 131 | 134 | 135 | 144 | 146 | 154 | 159 | 167 | 174 | 175 | 176 | 177
  | 215 | 226 | 233 => some 0
  | 96 => some 1
  | 166 => some 0o22
  | 204 | 205 => some (-1)
  | _ => none

/-- The decimal digits of a number. -/
def decimal (n : Nat) : Path := utf8 (toString n)

def dispatch (env : Env) (num : Nat) (a : Args) : KM Int := do
  match io_call env num a with
  | some c => KM.io c
  | none =>
    match constant_call num with
    | some r => return r
    | none =>
      match num with
      | 93 | 94 => sys_exit (toIsize a.a0)
      | 155 | 157 | 172 | 178 => sys_getpid
      | 173 => sys_getppid
      | 214 => sys_brk a.a0
      | 220 => sys_clone a.a1
      | 221 => sys_execve env a.a0 a.a1 a.a2
      | 222 =>
        sys_mmap a.a0 a.a1 (toIsize a.a2) (toIsize a.a3) (toIsize a.a4) a.a5
      | 260 => sys_wait4 (toIsize a.a0) a.a1 (toIsize a.a2)
      | _ =>
        warn (utf8 "Unhandled syscall " ++ decimal num)
        return -1

/-- The calls that change processes or address spaces. -/
def processCalls : List Nat := [93, 94, 214, 220, 221, 222, 260]

/-- What a returning call of `dispatch` is. -/
inductive Dispatched (env : Env) (num : Nat) (a : Args) (k : Kernel) (r : Int) (k' : Kernel) : Prop where
  /-- An input or output call, or the warning about an unknown one. -/
  | io (c : IoM Int) (hnum : num ∉ processCalls) (h : KM.io c k = .ok r k')
      (hc : io_call env num a = some c ∨
        c = do print (utf8 "[WARN] " ++ (utf8 "Unhandled syscall " ++ decimal num) ++ utf8 "\n"); return -1)
  /-- A call that only returns a number. -/
  | quiet (hnum : num ∉ processCalls) (h : k' = k)
  | exit (hnum : num = 93 ∨ num = 94) (h : sys_exit (toIsize a.a0) k = .ok r k')
  | brk (hnum : num = 214) (h : sys_brk a.a0 k = .ok r k')
  | clone (hnum : num = 220) (h : sys_clone a.a1 k = .ok r k')
  | execve (hnum : num = 221) (h : sys_execve env a.a0 a.a1 a.a2 k = .ok r k')
  | mmap (hnum : num = 222)
      (h : sys_mmap a.a0 a.a1 (toIsize a.a2) (toIsize a.a3) (toIsize a.a4) a.a5 k = .ok r k')
  | wait4 (hnum : num = 260) (h : sys_wait4 (toIsize a.a0) a.a1 (toIsize a.a2) k = .ok r k')

theorem io_call_not_process {env : Env} {num : Nat} {a : Args} {c : IoM Int}
    (h : io_call env num a = some c) : num ∉ processCalls := by
  intro hmem
  simp only [processCalls, List.mem_cons, List.not_mem_nil, or_false] at hmem
  rcases hmem with rfl | rfl | rfl | rfl | rfl | rfl | rfl <;> cases h

theorem constant_call_not_process {num : Nat} {r : Int} (h : constant_call num = some r) :
    num ∉ processCalls := by
  intro hmem
  simp only [processCalls, List.mem_cons, List.not_mem_nil, or_false] at hmem
  rcases hmem with rfl | rfl | rfl | rfl | rfl | rfl | rfl <;> cases h

theorem KM.io_bind_pure {α β : Type} (c : IoM α) (b : β) (k : Kernel) :
    (do let _ ← KM.io c; return b : KM β) k = KM.io (do let _ ← c; return b) k := by
  rw [Prog.bind_run]
  unfold KM.io
  rw [run_bind]
  cases run (machine k.satp) c k.view with
  | ok x s => rfl
  | error e s => rfl

/-- **Inversion of `dispatch`.** -/
theorem dispatch_cases {env : Env} {num : Nat} {a : Args} {k k' : Kernel} {r : Int}
    (h : dispatch env num a k = .ok r k') : Dispatched env num a k r k' := by
  unfold dispatch at h
  cases hc : io_call env num a with
  | some c =>
    simp only [hc] at h
    exact .io c (io_call_not_process hc) h (Or.inl hc)
  | none =>
    cases hr : constant_call num with
    | some r' =>
      simp only [hc, hr] at h
      cases h
      exact .quiet (constant_call_not_process hr) rfl
    | none =>
      simp only [hc, hr] at h
      split at h
      · exact .exit (Or.inl rfl) h
      · exact .exit (Or.inr rfl) h
      · exact .quiet (by decide) (by cases h; rfl)
      · exact .quiet (by decide) (by cases h; rfl)
      · exact .quiet (by decide) (by cases h; rfl)
      · exact .quiet (by decide) (by cases h; rfl)
      · exact .quiet (by decide) (by cases h; rfl)
      · exact .brk rfl h
      · exact .clone rfl h
      · exact .execve rfl h
      · exact .mmap rfl h
      · exact .wait4 rfl h
      · unfold warn at h
        rw [KM.io_bind_pure] at h
        exact .io _ (by simp_all [processCalls]) h (Or.inr rfl)

end Rvos
