import Rvos.Io.Net

/-! # System calls on descriptors, files and pipes (`syscall.rs`)

    The handlers take raw pointers and dereference them as they are: no
    handler checks a pointer.  `isize` arguments are integers, `usize` ones
    naturals; `fd as usize` is `ofIsize fd`. -/

namespace Rvos

open Access ByteMem Usize

/-- Wrapping `isize` arithmetic. -/
def isize (i : Int) : Int := toIsize (ofIsize i)

/-- A little-endian number. -/
def leNat : List UInt8 → Nat
  | [] => 0
  | b :: bs => b.toNat + 256 * leNat bs

theorem leNat_leBytes (n : Nat) : ∀ v, leNat (leBytes n v) = v % 256 ^ n := by
  induction n with
  | zero =>
    intro v
    simp [leBytes, leNat, Nat.mod_one]
  | succ n ih =>
    intro v
    have hcons : leBytes (n + 1) v = UInt8.ofNat v :: leBytes n (v / 256) := by
      simp only [leBytes, List.range_succ_eq_map, List.map_cons, List.map_map, Nat.pow_zero, Nat.div_one]
      congr 1
      refine List.map_congr_left fun i _ => ?_
      simp only [Function.comp, Nat.succ_eq_add_one, Nat.pow_succ']
      rw [Nat.div_div_eq_div_mul]
    rw [hcons, leNat, ih, Nat.pow_succ', Nat.mod_mul]
    simp

/-! ## Section 1: Strings -/

/-- Continue checking UTF-8 with `need` more bytes of a character, the next of
    them between `lo` and `hi`. -/
def utf8_go : (need : Nat) → (lo hi : UInt8) → List UInt8 → Bool
  | 0, _, _, [] => true
  | _ + 1, _, _, [] => false
  | 0, _, _, b :: bs =>
    if b < 0x80 then utf8_go 0 0 0 bs
    else if 0xc2 ≤ b ∧ b ≤ 0xdf then utf8_go 1 0x80 0xbf bs
    else if b = 0xe0 then utf8_go 2 0xa0 0xbf bs
    else if b = 0xed then utf8_go 2 0x80 0x9f bs
    else if 0xe1 ≤ b ∧ b ≤ 0xef then utf8_go 2 0x80 0xbf bs
    else if b = 0xf0 then utf8_go 3 0x90 0xbf bs
    else if 0xf1 ≤ b ∧ b ≤ 0xf3 then utf8_go 3 0x80 0xbf bs
    else if b = 0xf4 then utf8_go 3 0x80 0x8f bs
    else false
  | n + 1, lo, hi, b :: bs => if lo ≤ b ∧ b ≤ hi then utf8_go n 0x80 0xbf bs else false

/-- `core::str::from_utf8` accepts the bytes. -/
def utf8_valid (bs : List UInt8) : Bool := utf8_go 0 0 0 bs

/-- The loop of `cstr`, for at most `fuel` bytes. -/
def cstr_go (p : Ptr) : (fuel : Nat) → IoM Path
  | 0 => throw .spin
  | fuel + 1 => do
    let b ← Code.loadByte p
    if b = 0 then
      return []
    let rest ← cstr_go (p.add 1) fuel
    return b :: rest

/-- `cstr`: the bytes up to the first zero; a whole address space without one
    is an endless loop. -/
@[irreducible] def cstr (p : Ptr) : IoM Path := cstr_go p (2 ^ 64)

/-! ## Section 2: Writing -/

/-- `fs::write_inode`: the vector grows on the heap; the slice it then writes to
    is out of order if `offset + buf.len()` wrapped. -/
def write_inode (inode : Nat) (buf : List UInt8) (offset : Nat) : IoM Nat := do
  let fs := (← get).fs
  match fs.inode_map[inode]? with
  | none => return 0
  | some path =>
    match fs.files[path]? with
    | some ⟨.Dynamic v cap⟩ =>
      let last := wadd offset buf.length
      let cap' ← if last > v.length then vec_reserve 1 0 v.length cap (last - v.length) else pure cap
      if last < offset then
        throw (.panic "slice index starts after its end")
      let v := v ++ List.replicate (last - v.length) 0
      let v := v.take offset ++ buf ++ v.drop last
      modify fun io => { io with
        fs := { io.fs with files := io.fs.files.insert path ⟨.Dynamic v cap'⟩ } }
      return buf.length
    | some ⟨.Static _⟩ => return 0
    | none => return 0

/-- Copy `count` user bytes into a new vector. -/
def copy_in (buf : Ptr) (count : Nat) : IoM (List UInt8) := do
  let _ ← vec_zeroed count
  Code.loadBytes buf count

/-- `sys_write` to the pipe `pid`. -/
def write_pipe (pid : Nat) (buf : Ptr) (count : Nat) : IoM Int := do
  match (← get).pipes[pid]? with
  | none => return 0
  | some pipe =>
    let tmp ← copy_in buf count
    let (pipe, n) := pipe.write tmp
    modify fun io => { io with pipes := io.pipes.insert pid pipe }
    return n

/-- `sys_write` through the descriptor table. -/
def write_open (fd : Nat) (buf : Ptr) (count : Nat) : IoM Int := do
  match (← get).fd_table.get fd with
  | none => return -1
  | some of =>
    match of.pipe_id with
    | some pid => write_pipe pid buf count
    | none =>
      let tmp ← copy_in buf count
      let n ← write_inode of.inode tmp of.offset
      fd_put fd { of with offset := wadd of.offset n }
      return n

/-- The echo of log files is at level `info`, which is off, but the bytes are
    read and checked. -/
def log_echo (fd : Int) (buf : Ptr) (count : Nat) : IoM Unit := do
  if fd = 3 ∨ fd = 4 ∨ fd = 5 ∨ fd = 6 then
    let _ ← Code.loadBytes buf count

def sys_write (env : Env) (fd : Int) (buf : Ptr) (count : Nat) : IoM Int := do
  if fd = 1 ∨ fd = 2 then
    let slice ← Code.loadBytes buf count
    print (if utf8_valid slice then slice else utf8 "<invalid utf8>")
    return toIsize count
  log_echo fd buf count
  if ← is_inet_socket (ofIsize fd) then
    send_to_fd env (ofIsize fd) buf count
  else
    write_open (ofIsize fd) buf count

/-- The loop of `sys_writev` over `left` more entries. -/
def writev_loop (env : Env) (fd : Int) : (iov : Ptr) → (left : Nat) → (total : Int) → IoM Int
  | _, 0, total => return total
  | iov, left + 1, total => do
    let base := leNat (← Code.loadBytes iov 8)
    let len := leNat (← Code.loadBytes (iov.add 8) 8)
    if len = 0 then
      writev_loop env fd (iov.add 16) left total
    else
      let n ← sys_write env fd ⟨base, false⟩ len
      if n < 0 then
        return if total = 0 then n else total
      let total := isize (total + n)
      if ofIsize n < len then
        return total
      writev_loop env fd (iov.add 16) left total

def sys_writev (env : Env) (fd : Int) (iov : Ptr) (iovcnt : Nat) : IoM Int :=
  writev_loop env fd iov iovcnt 0

def sys_pwrite64 (fd : Int) (buf : Ptr) (count offset : Nat) : IoM Int := do
  match (← get).fd_table.get (ofIsize fd) with
  | none => return -1
  | some of =>
    let tmp ← copy_in buf count
    return (← write_inode of.inode tmp offset)

/-! ## Section 3: Reading -/

/-- What the console shows for a byte of input. -/
def echo (c : UInt8) : List UInt8 :=
  if c = 13 ∨ c = 10 then [13, 10]
  else if 0x20 ≤ c ∧ c < 0x7f then [c]
  else if c = 9 then [9]
  else []

/-- The loop of `sys_read` on stdin, with `input` still to come: a backspace
    takes the last byte back, a carriage return counts as a newline. -/
def read_line (buf : Ptr) (count : Nat) : (input : List UInt8) → (n : Nat) → IoM Nat
  | [], n => if n < count then throw .spin else return n
  | c :: input, n => do
    if n ≥ count then
      return n
    modify fun io => { io with uart_in := input }
    if c = 0x08 ∨ c = 0x7f then
      if n > 0 then
        print [0x08, 0x20, 0x08]
      read_line buf count input (n - 1)
    else
      let b := if c = 13 then 10 else c
      print (echo c)
      Code.storeByte (buf.add n) b
      if b = 10 then
        return n + 1
      read_line buf count input (n + 1)

/-- `fs::read_inode` into a new vector of `count` bytes. -/
def read_file (inode count offset : Nat) : IoM (List UInt8) := do
  let _ ← vec_zeroed count
  match (← get).fs.read_inode inode count offset with
  | .ok bytes => return bytes
  | .error e => throw e

/-- What is left of an `nscd` answer, at most `len` bytes. -/
def NscdState.rest (st : NscdState) (len : Nat) : List UInt8 := (st.data.drop st.offset).take len

/-- `sys_read` from the pipe `pid`. -/
def read_pipe (pid : Nat) (buf : Ptr) (count : Nat) : IoM Int := do
  match (← get).pipes[pid]? with
  | none => return 0
  | some pipe =>
    let _ ← vec_zeroed count
    let (pipe, out) := pipe.read count
    modify fun io => { io with pipes := io.pipes.insert pid pipe }
    Code.storeBytes buf out
    return out.length

/-- `sys_read` through the descriptor table, stdin apart. -/
def read_open (fd : Nat) (buf : Ptr) (count : Nat) : IoM Int := do
  match (← get).fd_table.get fd with
  | none => return -1
  | some of =>
    match of.pipe_id with
    | some pid => read_pipe pid buf count
    | none =>
      let out ← read_file of.inode count of.offset
      Code.storeBytes buf out
      fd_put fd { of with offset := wadd of.offset out.length }
      return out.length

/-- The descriptor denotes the console. -/
def Io.is_stdin (io : Io) (fd : Nat) : Bool :=
  match io.fd_table.get fd with
  | some of => of.inode == 0 && of.pipe_id.isNone
  | none => false

def sys_read (env : Env) (fd : Int) (buf : Ptr) (count : Nat) : IoM Int := do
  let io ← get
  if io.is_stdin (ofIsize fd) then
    return toIsize (← read_line buf count io.uart_in 0)
  match io.fake_fds[ofIsize fd]? with
  | some (.Nscd st) =>
    let out := st.rest count
    Code.storeBytes buf out
    fake_fd_insert (ofIsize fd) (.Nscd { st with offset := wadd st.offset out.length })
    return out.length
  | some .InetSocket => recv_from_fd env (ofIsize fd) buf count
  | _ => read_open (ofIsize fd) buf count

def sys_pread64 (fd : Int) (buf : Ptr) (count offset : Nat) : IoM Int := do
  match (← get).fd_table.get (ofIsize fd) with
  | none => return -1
  | some of =>
    let out ← read_file of.inode count offset
    Code.storeBytes buf out
    return out.length

/-- `sys_sendfile`: through a buffer of the kernel's own. -/
def sys_sendfile (env : Env) (out_fd in_fd : Int) (count : Nat) : IoM Int := do
  let buf ← vec_zeroed (min count 4096)
  let n ← sys_read env in_fd ⟨buf, true⟩ (min count 4096)
  if n ≤ 0 then
    return n
  sys_write env out_fd ⟨buf, true⟩ (ofIsize n)

def sys_getdents64 (fd : Int) (buf : Ptr) (count : Nat) : IoM Int := do
  match (← get).fd_table.get (ofIsize fd) with
  | none => return -1
  | some of =>
    let _ ← vec_zeroed count
    let (bytes, next_off) := (← get).fs.read_dir of.inode count of.offset
    if bytes.length > 0 then
      Code.storeBytes buf bytes
      fd_put (ofIsize fd) { of with offset := next_off }
    return bytes.length

/-! ## Section 4: Opening, closing, positioning -/

def sys_openat (path : Ptr) (flags : Int) : IoM Int := do
  let path ← cstr path
  match (← get).fs.lookup path with
  | none => return -2
  | some inode =>
    let writable := ofIsize flags &&& 1 != 0 || ofIsize flags &&& 2 != 0
    let (t, fd) ← (← get).fd_table.alloc
      { inode := inode, offset := 0, readable := true, writable := writable, pipe_id := none }
    modify fun io => { io with fd_table := t }
    return fd

def sys_close (fd : Int) : IoM Int := do
  if fd < 3 ∧ fd ≥ 0 then
    return -1
  if ← is_inet_socket (ofIsize fd) then
    close_fd (ofIsize fd)
    modify fun io => { io with fake_fds := io.fake_fds.erase (ofIsize fd) }
    return 0
  if ← is_fake_fd (ofIsize fd) then
    modify fun io => { io with fake_fds := io.fake_fds.erase (ofIsize fd) }
    return 0
  modify fun io => { io with fd_table := io.fd_table.close (ofIsize fd) }
  return 0

def sys_lseek (fd offset whence : Int) : IoM Int := do
  match (← get).fd_table.get (ofIsize fd) with
  | none => return -1
  | some of =>
    let seek (base : Int) : IoM Int := do
      let o := ofIsize (base + offset)
      fd_put (ofIsize fd) { of with offset := o }
      return toIsize o
    if whence = 0 then seek 0
    else if whence = 1 then seek (toIsize of.offset)
    else if whence = 2 then seek (toIsize ((← get).fs.file_size of.inode))
    else return -1

def sys_dup2 (oldfd newfd : Int) : IoM Int := do
  let (t, ok) ← (← get).fd_table.dup2 (ofIsize oldfd) (ofIsize newfd)
  modify fun io => { io with fd_table := t }
  return if ok then newfd else -1

def sys_pipe2 (pipefd : Ptr) : IoM Int := do
  let id := (← get).next_pipe_id
  let _ ← vec_zeroed 4096
  modify fun io => { io with
    next_pipe_id := id + 1
    pipes := io.pipes.insert id .new }
  let (t, rfd) ← (← get).fd_table.alloc
    { inode := 0, offset := 0, readable := true, writable := false, pipe_id := some id }
  modify fun io => { io with fd_table := t }
  let (t, wfd) ← (← get).fd_table.alloc
    { inode := 0, offset := 0, readable := false, writable := true, pipe_id := some id }
  modify fun io => { io with fd_table := t }
  Code.storeBytes pipefd (leBytes 4 rfd)
  Code.storeBytes (pipefd.add 4) (leBytes 4 wfd)
  return 0

def sys_faccessat (path : Ptr) : IoM Int := do
  let path ← cstr path
  return if ((← get).fs.lookup path).isSome then 0 else -2

def sys_mkdirat (path : Ptr) : IoM Int := do
  let path ← cstr path
  if ((← get).fs.lookup path).isNone then
    modify fun io => { io with fs := io.fs.mkdir path }
  return 0

/-! ## Section 5: File status -/

/-- `fill_stat`: an empty file is reported as a directory. -/
def fill_stat (buf : Ptr) (size : Nat) : IoM Unit := do
  Code.storeBytes buf (List.replicate 128 0)
  Code.storeBytes (buf.add 16) (leBytes 4 (if size = 0 then 0o40755 else 0o100644))
  Code.storeBytes (buf.add 24) (leBytes 4 1)
  Code.storeBytes (buf.add 48) (leBytes 8 size)
  Code.storeBytes (buf.add 56) (leBytes 4 4096)
  Code.storeBytes (buf.add 64) (leBytes 8 (wadd size 511 / 512))

def fill_stat_chr (buf : Ptr) : IoM Unit := do
  Code.storeBytes buf (List.replicate 128 0)
  Code.storeBytes (buf.add 16) (leBytes 4 0o20620)
  Code.storeBytes (buf.add 24) (leBytes 4 1)
  Code.storeBytes (buf.add 32) (leBytes 4 0)
  Code.storeBytes (buf.add 36) (leBytes 4 0)
  Code.storeBytes (buf.add 40) (leBytes 8 0x102)
  Code.storeBytes (buf.add 48) (leBytes 8 0)
  Code.storeBytes (buf.add 56) (leBytes 4 4096)
  Code.storeBytes (buf.add 64) (leBytes 8 0)

def sys_fstat (fd : Int) (buf : Ptr) : IoM Int := do
  let io ← get
  match io.fd_table.get (ofIsize fd) with
  | none => return -1
  | some of =>
    if of.inode = 0 then
      fill_stat_chr buf
    else
      fill_stat buf (io.fs.file_size of.inode)
    return 0

/-- `sys_fstatat` and `sys_statx`, which differ in the error. -/
def stat_path (path buf : Ptr) (enoent : Int) : IoM Int := do
  let path ← cstr path
  let io ← get
  match io.fs.lookup path with
  | none => return enoent
  | some inode =>
    fill_stat buf (io.fs.file_size inode)
    return 0

def sys_fstatat (path buf : Ptr) : IoM Int := stat_path path buf (-2)

def sys_statx (path buf : Ptr) : IoM Int := stat_path path buf (-1)

def sys_readlinkat (path buf : Ptr) (bufsiz : Nat) : IoM Int := do
  let path ← cstr path
  if path = utf8 "/proc/self/exe" then
    let bytes := (utf8 "/sbin/nginx").take bufsiz
    Code.storeBytes buf bytes
    return bytes.length
  return -1

/-! ## Section 6: Reading files -/

section Read

variable {M : Machine HeapAllocator Halt} {s t : St HeapAllocator Io} {inode count offset : Nat}

theorem Fs.length_read_inode {fs : Fs} {bs : List UInt8}
    (h : fs.read_inode inode count offset = .ok bs) : bs.length ≤ count := by
  unfold Fs.read_inode at h
  split at h
  · dsimp only at h
    split at h
    · cases h
    · cases h
      simp only [List.length_take, List.length_drop]
      omega
  · cases h
    exact Nat.zero_le _

/-- **`read_file`** returns what `read_inode` does and changes no file. -/
theorem run_read_file {bs : List UInt8} (h : run M (read_file inode count offset) s = .ok bs t) :
    s.st.fs.read_inode inode count offset = .ok bs ∧ t.st = s.st ∧ count ≤ isizeMax := by
  obtain ⟨a, u, hvec, h⟩ := (run_bind_ok M).mp h
  have hst := (run_vec_zeroed hvec).1
  have hle := vec_zeroed_le hvec
  rw [run_get_bind, hst] at h
  cases hread : s.st.fs.read_inode inode count offset with
  | ok bytes =>
    simp only [hread] at h
    cases h
    exact ⟨rfl, hst, hle⟩
  | error e =>
    simp only [hread] at h
    cases h

@[simp] theorem trace_read_file : trace M (read_file inode count offset) s = [] := by
  unfold read_file
  rw [trace_bind, trace_vec_zeroed, List.nil_append]
  cases run M (vec_zeroed count) s with
  | error e u => rfl
  | ok a u =>
    simp only [trace_bind, run_get, trace_get, List.nil_append]
    cases u.st.fs.read_inode inode count offset with
    | ok bytes => rfl
    | error e => rfl

end Read

/-! ## Section 7: Strings in memory -/

/-- The string `bs` with its zero lies at `p`. -/
def str_at (M : Machine HeapAllocator Halt) (m : Mem) : Ptr → List UInt8 → Bool
  | p, [] => (M.at m ⟨false, p⟩).map m == some 0
  | p, b :: bs => (M.at m ⟨false, p⟩).map m == some b && b != 0 && str_at M m (p.add 1) bs

theorem run_cstr_go {M : Machine HeapAllocator Halt} {s : St HeapAllocator Io} {bs : List UInt8} :
    ∀ {p : Ptr} {fuel : Nat}, bs.length < fuel → str_at M s.mem p bs = true →
      run M (cstr_go p fuel) s = .ok bs s := by
  induction bs with
  | nil =>
    intro p fuel hfuel hstr
    obtain ⟨fuel, rfl⟩ := Nat.exists_eq_add_of_lt hfuel
    simp only [str_at, beq_iff_eq, Option.map_eq_some_iff] at hstr
    obtain ⟨a, hat, hzero⟩ := hstr
    simp [cstr_go, run_bind, Code.loadByte, run, hat, hzero]
  | cons b bs ih =>
    intro p fuel hfuel hstr
    obtain ⟨fuel, rfl⟩ := Nat.exists_eq_add_of_lt (Nat.zero_lt_of_lt hfuel)
    simp only [str_at, Bool.and_eq_true, beq_iff_eq, bne_iff_ne, Option.map_eq_some_iff] at hstr
    obtain ⟨⟨⟨a, hat, hb⟩, hne⟩, hrest⟩ := hstr
    have hlt : bs.length < 0 + fuel := by simpa using hfuel
    have hgo := ih hlt hrest
    simp only [cstr_go, run_bind, Code.loadByte, run, hat, hb, hne, if_false, hgo, run_pure]

/-- **`cstr`** delivers the bytes before the zero and changes nothing. -/
theorem run_cstr {M : Machine HeapAllocator Halt} {s : St HeapAllocator Io} {p : Ptr}
    {bs : List UInt8} (hlen : bs.length < 2 ^ 64) (hstr : str_at M s.mem p bs = true) :
    run M (cstr p) s = .ok bs s := by
  unfold cstr
  exact run_cstr_go hlen hstr

end Rvos
