import Rvos.Kernel.State

/-! # Processes and programs (`proc.rs`)

    * `Process.new`, `init_user_proc` : the first process.
    * `exec_process` : a new address space from an ELF file for the caller.
    * `fork_process` : a copy of the caller.
    * `exit_process` : the caller becomes a zombie and wakes its parent. -/

namespace Rvos

open Access ByteMem Usize

/-! ## Section 1: Address spaces of programs -/

/-- The page above which nothing of the user stack lies. -/
def stackTop : Nat := 0x0000_003f_ffff_f000

/-- Page `i` of the user stack, counted from the top: its frame. -/
def map_stack_page (pt : PageTable) (i : Nat) : MmM (Option Nat) := do
  match ← alloc_page with
  | none => return none
  | some page =>
    pt.map (wsub stackTop (wmul i PAGE_SIZE)) page (.U ||| .R ||| .W)
    return some page

/-- The nine pages of the user stack: the frame of the topmost. -/
def map_stack (pt : PageTable) : MmM (Option Nat) := do
  match ← map_stack_page pt 0 with
  | none => return none
  | some top =>
    let rest ← Prog.each (fun i => return (← map_stack_page pt i).map fun _ => ⟨⟩)
      [1, 2, 3, 4, 5, 6, 7, 8]
    return rest.map fun _ => top

/-- The flags of a segment's pages. -/
def ProgramHeader.pte_flags (ph : ProgramHeader) : PTEFlags :=
  .U ||| (if ph.read then .R else 0) ||| (if ph.write then .W else 0) |||
    (if ph.execute then .X else 0)

/-- `saturating_add`. -/
def satAdd (a b : Nat) : Nat := min (a + b) (2 ^ 64 - 1)

def ProgramHeader.seg_file_end (ph : ProgramHeader) : Nat := satAdd ph.vaddr ph.filesz

def ProgramHeader.seg_mem_end (ph : ProgramHeader) : Nat := satAdd ph.vaddr ph.memsz

/-- One page of a segment, from the file's bytes at `data`. -/
def load_page (pt : PageTable) (data : Nat) (ph : ProgramHeader) (page : Nat) :
    MmM (Option PUnit) := do
  match ← alloc_page with
  | none => return none
  | some paddr =>
    pt.map page paddr ph.pte_flags
    let page_mem_end := min (wadd page PAGE_SIZE) ph.seg_mem_end
    phys_zero paddr (wsub page_mem_end page)
    let page_file_start := max page ph.vaddr
    let page_file_end := min (wadd page PAGE_SIZE) ph.seg_file_end
    if page_file_end > page_file_start then
      let copy_offset := wadd ph.offset (page_file_start - ph.vaddr)
      let dest_offset := page_file_start - page
      phys_copy (wadd data copy_offset) (paddr + dest_offset) (page_file_end - page_file_start)
    return some ⟨⟩

/-- The loop over the pages of a segment from `page` on.  Every turn takes a
    frame, so `fuel` turns suffice if it is more than the frames left. -/
def load_pages (pt : PageTable) (data : Nat) (ph : ProgramHeader) (last_page : Nat) :
    (fuel page : Nat) → MmM (Option PUnit)
  | 0, _ => throw .spin
  | fuel + 1, page => do
    if page > last_page then
      return some ⟨⟩
    match ← load_page pt data ph page with
    | none => return none
    | some _ => load_pages pt data ph last_page fuel (wadd page PAGE_SIZE)

/-- One program header. -/
def load_segment (pt : PageTable) (data : Nat) (ph : ProgramHeader) : MmM (Option PUnit) := do
  match ph.load with
  | none => return none
  | some false => return some ⟨⟩
  | some true =>
    let first_page := ph.vaddr &&& bnot (PAGE_SIZE - 1)
    let last_page := wsub ph.seg_mem_end 1 &&& bnot (PAGE_SIZE - 1)
    let s ← get
    load_pages pt data ph last_page (s.pages.end_ - s.pages.current + 1) first_page

/-- The end of the highest segment. -/
def Elf.max_end (elf : Elf) : Nat :=
  (elf.program_headers.filter (·.load = some true)).foldl (fun m ph => max m ph.seg_mem_end) 0

/-- `load_elf_into`, from the file's bytes at `data`: the end of the highest segment. -/
def load_elf_into (pt : PageTable) (data : Nat) (elf : Elf) : MmM (Option Nat) := do
  let r ← Prog.each (load_segment pt data) elf.program_headers
  return r.map fun _ => elf.max_end

/-- The lowest address of a segment, `0` if there is none. -/
def Elf.base_vaddr (elf : Elf) : Nat :=
  (((elf.program_headers.filter (·.load = some true)).map (·.vaddr)).min?).getD 0

/-- `align_elf`: the address of a copy of the file on the kernel heap. -/
def align_elf (data : List UInt8) : KM (Option Nat) := do
  let k ← get
  match heap_alloc k.heap data.length 4 with
  | (none, h) =>
    set { k with heap := h }
    return none
  | (some ptr, h) =>
    set { k with heap := h, mm := { k.mm with mem := blit k.mm.mem ptr data } }
    return some ptr

/-! ## Section 2: The initial stack -/

/-- A word, as the kernel stores it. -/
def word (v : Nat) : List UInt8 := leBytes 8 v

/-- `argc`, the pointers to arguments and environment, and the auxiliary vector. -/
def stack_vector (argc envc at_phdr phent phnum entry : Nat) : List Nat :=
  [argc] ++
  (List.range argc).map (fun i => stackTop + 0x400 + i * 0x100) ++ [0] ++
  (List.range envc).map (fun i => stackTop + 0x400 + argc * 0x100 + i * 0x100) ++ [0] ++
  [6, 4096, 3, at_phdr, 4, phent, 5, phnum, 9, entry, 25, stackTop + 0x200, 17, 100, 0, 0]

/-- The strings, 256 bytes apart. -/
def write_strings (base : Nat) : List Path → (str_off : Nat) → MmM Unit
  | [], _ => return ()
  | s :: rest, str_off => do
    phys_write (base + str_off) (s ++ [0])
    write_strings base rest (str_off + 0x100)

/-- `build_stack` in the page at `base`: it fills the page from its start; the
    stack pointer is the page's address. -/
def build_stack (base : Nat) (argv envp : List Path) (at_phdr phent phnum entry : Nat) :
    MmM Nat := do
  phys_write base
    ((stack_vector argv.length envp.length at_phdr phent phnum entry).flatMap word)
  write_strings base (argv ++ envp) 0x400
  phys_write (base + 0x200) (List.replicate 16 0xab)
  return stackTop

/-- The part that `init_user_proc` and `exec_process` have in common, on a table
    with the identity mappings: stack, segments and initial stack contents.
    The ELF file and the end of its highest segment. -/
def load_program (env : Env) (pt : PageTable) (elf_data : List UInt8) (argv envp : List Path) :
    KM (Option (Elf × Nat)) := do
  match ← KM.mm (map_stack pt) with
  | none => return none
  | some top_page_paddr =>
    match ← align_elf elf_data with
    | none => return none
    | some data =>
      match env.parse_elf elf_data with
      | none => return none
      | some elf =>
        match ← KM.mm (load_elf_into pt data elf) with
        | none => return none
        | some max_end =>
          let _ ← KM.mm (build_stack top_page_paddr argv envp (wadd elf.base_vaddr elf.ph_offset)
            elf.ph_entry_size elf.program_headers.length elf.entry)
          return some (elf, max_end)

/-- The program break after the highest segment. -/
def initial_brk (max_end : Nat) : Nat :=
  let brk := wsub (wadd max_end PAGE_SIZE) 1 &&& bnot (PAGE_SIZE - 1)
  if brk = 0 then 0x10000 else brk

/-- `sstatus` of a new program: `SPIE`, and the floating-point unit on. -/
def userStatus : Word := (1#64 <<< 5) ||| (1#64 <<< 13)

/-! ## Section 3: Processes -/

/-- `Process::new`. -/
def Process.new (pid : Nat) : MmM (Option Process) := do
  match ← PageTable.new with
  | none => return none
  | some pt =>
    match ← alloc_pages 2 with
    | none => return none
    | some kstack =>
      pt.identity_map
      return some {
        pid := pid
        ppid := 0
        state := .Ready
        page_table := pt
        trap_frame := .new
        kernel_stack := kstack + 2 * PAGE_SIZE
        brk := 0
        exit_code := 0
        fd_table := .new }

/-- Set one register. -/
def setReg (x : Regs) (i : Fin 32) (v : Word) : Regs := Function.update x i v

/-- The trap frame of a program that starts. -/
def TrapFrame.start (tf : TrapFrame) (entry : Nat) (sp : Nat) : TrapFrame :=
  { tf with
    regs := setReg tf.regs 2 (BitVec.ofNat 64 sp)
    sepc := BitVec.ofNat 64 entry
    sstatus := userStatus }

def init_user_proc (env : Env) (elf_data : List UInt8) (argv : List Path) : KM (Option Unit) := do
  match ← KM.mm (Process.new 1) with
  | none => return none
  | some proc =>
    match ← load_program env proc.page_table elf_data argv [utf8 "PATH=/bin"] with
    | none => return none
    | some (elf, max_end) =>
      let tf := proc.trap_frame.start elf.entry stackTop
      let proc := { proc with
        brk := initial_brk max_end
        trap_frame := { tf with regs := setReg tf.regs 10 (BitVec.ofNat 64 argv.length) }
        state := .Running }
      modify fun k => { k with current_pid := 1, procs := k.procs.insert 1 proc, next_pid := 2 }
      return some ()

/-- `exec_process` for the current process `proc`: its new stack pointer. -/
def exec_process (env : Env) (pid : Nat) (elf_data : List UInt8) (argv envp : List Path) :
    KM (Option Nat) := do
  match ← KM.mm PageTable.new with
  | none => return none
  | some new_pt =>
    KM.mm new_pt.identity_map
    match ← load_program env new_pt elf_data argv envp with
    | none => return none
    | some (elf, max_end) =>
      modify_proc pid fun proc => { proc with
        page_table := new_pt
        brk := initial_brk max_end
        trap_frame := proc.trap_frame.start elf.entry stackTop }
      return some stackTop

/-- `fork_process`: the pid of the child. -/
def fork_process (parent_tf : TrapFrame) : KM (Option Nat) := do
  let k ← get
  match k.current with
  | none => return none
  | some parent =>
    match ← KM.mm parent.page_table.clone_user_space with
    | none => return none
    | some child_pt =>
      match ← KM.mm (alloc_pages 2) with
      | none => return none
      | some child_kstack =>
        let pid := k.next_pid
        let child : Process := {
          pid := pid
          ppid := k.current_pid
          state := .Ready
          page_table := child_pt
          trap_frame := { parent_tf with
            regs := setReg parent_tf.regs 10 0
            sepc := parent_tf.sepc + 4 }
          kernel_stack := child_kstack + 2 * PAGE_SIZE
          brk := parent.brk
          exit_code := 0
          fd_table := parent.fd_table }
        modify fun k => { k with next_pid := pid + 1, procs := k.procs.insert pid child }
        return some pid

def exit_process (code : Int) : KM Unit := do
  let k ← get
  let ppid := match k.current with
    | some p => p.ppid
    | none => 0
  modify_proc k.current_pid fun p => { p with state := .Zombie, exit_code := code }
  modify_proc ppid fun p => if p.state = .Waiting then { p with state := .Ready } else p

/-- The child that `fork_process` makes of `parent`. -/
def Process.forked (parent : Process) (parent_tf : TrapFrame) (pid ppid : Nat) (child_pt : PageTable)
    (child_kstack : Nat) : Process where
  pid := pid
  ppid := ppid
  state := .Ready
  page_table := child_pt
  trap_frame := { parent_tf with
    regs := setReg parent_tf.regs 10 0
    sepc := parent_tf.sepc + 4 }
  kernel_stack := child_kstack + 2 * PAGE_SIZE
  brk := parent.brk
  exit_code := 0
  fd_table := parent.fd_table

/-- `fork_process` fails, with the memory it leaves: there is no current process,
    or no frames are left for the copy or for its kernel stack. -/
inductive ForkFails (k : Kernel) (mm : Mm) : Prop where
  | idle (hcur : k.current = none) (h : mm = k.mm)
  | copy (parent : Process) (hcur : k.current = some parent)
      (h : parent.page_table.clone_user_space k.mm = .ok none mm)
  | stack (parent : Process) (child_pt : PageTable) (mm1 : Mm) (hcur : k.current = some parent)
      (hclone : parent.page_table.clone_user_space k.mm = .ok (some child_pt) mm1)
      (h : alloc_pages 2 mm1 = .ok none mm)

/-- **Inversion of `fork_process`**: it fails and has touched only memory, or the
    copied table and the new kernel stack belong to a new process. -/
theorem fork_process_cases {tf : TrapFrame} {k k' : Kernel} {o : Option Nat}
    (h : fork_process tf k = .ok o k') :
    (o = none ∧ ∃ mm, ForkFails k mm ∧ k' = { k with mm := mm }) ∨
    (o = some k.next_pid ∧ ∃ parent child_pt child_kstack mm1 mm2, k.current = some parent ∧
      parent.page_table.clone_user_space k.mm = .ok (some child_pt) mm1 ∧
      alloc_pages 2 mm1 = .ok (some child_kstack) mm2 ∧
      k' = { k with
        mm := mm2
        next_pid := k.next_pid + 1
        procs := k.procs.insert k.next_pid
          (parent.forked tf k.next_pid k.current_pid child_pt child_kstack) }) := by
  unfold fork_process at h
  rw [Prog.bind_run, Prog.get_run] at h
  cases hcur : k.current with
  | none =>
    simp only [hcur] at h
    cases h
    exact Or.inl ⟨rfl, k.mm, .idle hcur rfl, rfl⟩
  | some parent =>
    simp only [hcur] at h
    obtain ⟨o1, k1, hclone, h⟩ := Prog.bind_eq_ok.mp h
    obtain ⟨mm1, hclone1, rfl⟩ := Prog.zoom_eq_ok.mp hclone
    cases o1 with
    | none =>
      cases h
      exact Or.inl ⟨rfl, mm1, .copy parent hcur hclone1, rfl⟩
    | some child_pt =>
      obtain ⟨o2, k2, hstack, h⟩ := Prog.bind_eq_ok.mp h
      obtain ⟨mm2, hstack2, rfl⟩ := Prog.zoom_eq_ok.mp hstack
      cases o2 with
      | none =>
        cases h
        exact Or.inl ⟨rfl, mm2, .stack parent child_pt mm1 hcur hclone1 hstack2, rfl⟩
      | some child_kstack =>
        cases h
        exact Or.inr ⟨rfl, parent, child_pt, child_kstack, mm1, mm2, rfl, hclone1, hstack2, rfl⟩

/-- The caller of `exec_process` with its new program. -/
def Process.execed (pt : PageTable) (elf : Elf) (max_end : Nat) (proc : Process) : Process :=
  { proc with
    page_table := pt
    brk := initial_brk max_end
    trap_frame := proc.trap_frame.start elf.entry stackTop }

/-- **Inversion of `exec_process`**: there is no frame for a table, or the
    program is loaded into a new table, and then it replaces the caller's. -/
theorem exec_process_cases {env : Env} {pid : Nat} {data : List UInt8} {argv envp : List Path}
    {k k' : Kernel} {o : Option Nat} (h : exec_process env pid data argv envp k = .ok o k') :
    (o = none ∧ ∃ mm, PageTable.new k.mm = .ok none mm ∧ k' = { k with mm := mm }) ∨
    ∃ pt mm1 mm2 loaded k3, PageTable.new k.mm = .ok (some pt) mm1 ∧
      pt.identity_map mm1 = .ok ⟨⟩ mm2 ∧
      load_program env pt data argv envp { k with mm := mm2 } = .ok loaded k3 ∧
      ((o = none ∧ loaded = none ∧ k' = k3) ∨
        ∃ elf max_end, o = some stackTop ∧ loaded = some (elf, max_end) ∧
          k' = { k3 with procs := k3.procs.modify pid (Process.execed pt elf max_end) }) := by
  unfold exec_process at h
  obtain ⟨o1, k1, hnew, h1⟩ := Prog.bind_eq_ok.mp h
  obtain ⟨mm1, hnew1, rfl⟩ := Prog.zoom_eq_ok.mp hnew
  cases o1 with
  | none =>
    cases h1
    exact Or.inl ⟨rfl, mm1, hnew1, rfl⟩
  | some pt =>
    obtain ⟨⟨⟩, k2, hident, h2⟩ := Prog.bind_eq_ok.mp h1
    obtain ⟨mm2, hident2, rfl⟩ := Prog.zoom_eq_ok.mp hident
    obtain ⟨loaded, k3, hload, h3⟩ := Prog.bind_eq_ok.mp h2
    refine Or.inr ⟨pt, mm1, mm2, loaded, k3, hnew1, hident2, hload, ?_⟩
    cases loaded with
    | none =>
      cases h3
      exact Or.inl ⟨rfl, rfl, rfl⟩
    | some res =>
      obtain ⟨elf, max_end⟩ := res
      cases h3
      exact Or.inr ⟨elf, max_end, rfl, rfl, rfl⟩

/-- The process that `init_user_proc` enters into the table. -/
def Process.first (proc : Process) (elf : Elf) (max_end argc : Nat) : Process :=
  let tf := proc.trap_frame.start elf.entry stackTop
  { proc with
    brk := initial_brk max_end
    trap_frame := { tf with regs := setReg tf.regs 10 (BitVec.ofNat 64 argc) }
    state := .Running }

/-- **Inversion of `init_user_proc`.** -/
theorem init_user_proc_cases {env : Env} {elf_data : List UInt8} {argv : List Path} {k k' : Kernel}
    (h : init_user_proc env elf_data argv k = .ok (some ()) k') :
    ∃ proc elf max_end k1 k2, KM.mm (Process.new 1) k = .ok (some proc) k1 ∧
      load_program env proc.page_table elf_data argv [utf8 "PATH=/bin"] k1 =
        .ok (some (elf, max_end)) k2 ∧
      k' = { k2 with
        current_pid := 1
        procs := k2.procs.insert 1 (proc.first elf max_end argv.length)
        next_pid := 2 } := by
  unfold init_user_proc at h
  obtain ⟨o, k1, hnew, h⟩ := Prog.bind_eq_ok.mp h
  cases o with
  | none => cases h
  | some proc =>
    obtain ⟨o2, k2, hload, h⟩ := Prog.bind_eq_ok.mp h
    cases o2 with
    | none => cases h
    | some r =>
      obtain ⟨elf, max_end⟩ := r
      cases h
      exact ⟨proc, elf, max_end, k1, k2, hnew, hload, rfl⟩

/-- **Inversion of `load_program`.** -/
theorem load_program_cases {env : Env} {pt : PageTable} {elf_data : List UInt8} {argv envp : List Path}
    {elf : Elf} {max_end : Nat} {k k' : Kernel}
    (h : load_program env pt elf_data argv envp k = .ok (some (elf, max_end)) k') :
    ∃ top data sp k1 k2 k3, KM.mm (map_stack pt) k = .ok (some top) k1 ∧
      align_elf elf_data k1 = .ok (some data) k2 ∧ env.parse_elf elf_data = some elf ∧
      KM.mm (load_elf_into pt data elf) k2 = .ok (some max_end) k3 ∧
      KM.mm (build_stack top argv envp (wadd elf.base_vaddr elf.ph_offset) elf.ph_entry_size
        elf.program_headers.length elf.entry) k3 = .ok sp k' := by
  unfold load_program at h
  obtain ⟨o1, k1, hstack, h⟩ := Prog.bind_eq_ok.mp h
  cases o1 with
  | none => cases h
  | some top =>
    obtain ⟨o2, k2, halign, h⟩ := Prog.bind_eq_ok.mp h
    cases o2 with
    | none => cases h
    | some data =>
      dsimp only at h
      cases hparse : env.parse_elf elf_data with
      | none =>
        rw [hparse] at h
        cases h
      | some elf' =>
        rw [hparse] at h
        obtain ⟨o3, k3, hload, h⟩ := Prog.bind_eq_ok.mp h
        cases o3 with
        | none => cases h
        | some e =>
          obtain ⟨sp, k4, hbuild, h⟩ := Prog.bind_eq_ok.mp h
          cases h
          exact ⟨top, data, sp, k1, k2, k3, hstack, halign, rfl, hload, hbuild⟩

/-- The loader returns the end of the highest segment. -/
theorem load_elf_into_end {pt : PageTable} {data e : Nat} {elf : Elf} {s t : Mm}
    (h : load_elf_into pt data elf s = .ok (some e) t) : e = elf.max_end := by
  unfold load_elf_into at h
  obtain ⟨o, s1, -, h⟩ := Prog.bind_eq_ok.mp h
  cases o with
  | none => cases h
  | some u =>
    cases h
    rfl

/-- **Inversion of `Process::new`.** -/
theorem Process.new_cases {pid : Nat} {s s' : Mm} {proc : Process}
    (h : Process.new pid s = .ok (some proc) s') :
    ∃ pt kstack s1 s2, PageTable.new s = .ok (some pt) s1 ∧
      alloc_pages 2 s1 = .ok (some kstack) s2 ∧ pt.identity_map s2 = .ok ⟨⟩ s' ∧
      proc = {
        pid := pid
        ppid := 0
        state := .Ready
        page_table := pt
        trap_frame := .new
        kernel_stack := kstack + 2 * PAGE_SIZE
        brk := 0
        exit_code := 0
        fd_table := .new } := by
  unfold Process.new at h
  obtain ⟨o, s1, hpt, h⟩ := Prog.bind_eq_ok.mp h
  cases o with
  | none => cases h
  | some pt =>
    obtain ⟨o2, s2, hstack, h⟩ := Prog.bind_eq_ok.mp h
    cases o2 with
    | none => cases h
    | some kstack =>
      obtain ⟨⟨⟩, s3, hmap, h⟩ := Prog.bind_eq_ok.mp h
      cases h
      exact ⟨pt, kstack, s1, s2, hpt, hstack, hmap, rfl⟩

end Rvos
