import Rvos.Io.Fs
import Rvos.Lib.Access

/-! # File descriptors and pipes (`syscall.rs`)

    * `FdTable`   : the descriptor table, a vector of optional open files.
    * `PipeInner` : the ring buffer of a pipe.
    * `FakeFdType`: descriptors that are not files; they live in a map of
      their own (`FAKE_FDS`) and are numbered from 100 on.

    Vectors grow on the kernel heap, whose blocks are never freed: growing
    can exhaust it, and then the kernel panics. -/

namespace Rvos

open Access Usize

/-! ## Section 1: Vectors on the kernel heap -/

section Vec

variable {σ : Type}

/-- `isize::MAX`, the largest block. -/
def isizeMax : Nat := 2 ^ 63 - 1

/-- `vec![0u8; n]`: the address of its block; an empty vector has none. -/
def vec_zeroed (n : Nat) : Code σ Halt Nat :=
  if n = 0 then
    pure 1
  else if n > isizeMax then
    throw (.panic "capacity overflow")
  else
    Code.allocZeroed n 0

/-- `RawVec::reserve`, for elements of `size` bytes: the capacity afterwards. -/
def vec_reserve (size log_align len cap additional : Nat) : Code σ Halt Nat := do
  if additional ≤ cap - len then
    return cap
  let required := len + additional
  let least := if size = 1 then 8 else 4
  let cap' := max (max (2 * cap) required) least
  if required ≥ 2 ^ 64 ∨ cap' * size > isizeMax then
    throw (.panic "capacity overflow")
  let _ ← Code.allocZeroed (cap' * size) log_align
  return cap'

variable {η : Type} {M : Machine η Halt} {s t : St η σ} {n : Nat}

theorem run_vec_zeroed {a : Nat} (h : run M (vec_zeroed n) s = .ok a t) :
    t.st = s.st ∧ ∀ w, moved M w (vec_zeroed n : Code σ Halt Nat) s = [] := by
  unfold vec_zeroed at h ⊢
  split at h
  · cases h
    exact ⟨rfl, fun w => by simp [*]⟩
  · split at h
    · cases h
    · next hn hmax =>
      simpa only [hn, hmax, if_false] using run_allocZeroed M h

/-- A vector that was created fits into `isize`, and is created without accesses. -/
theorem vec_zeroed_le {a : Nat} (h : run M (vec_zeroed n) s = .ok a t) : n ≤ isizeMax := by
  unfold vec_zeroed at h
  split at h
  · omega
  · split at h
    · cases h
    · omega

@[simp] theorem trace_vec_zeroed (M : Machine η Halt) (n : Nat) (s : St η σ) :
    trace M (vec_zeroed n : Code σ Halt Nat) s = [] := by
  unfold vec_zeroed
  split
  · rfl
  · split
    · rfl
    · simp only [Code.allocZeroed, trace]
      rcases M.alloc s.heap n 0 with ⟨_ | a, h⟩ <;> rfl

theorem run_vec_reserve {size log_align len cap additional cap' : Nat}
    (h : run M (vec_reserve size log_align len cap additional) s = .ok cap' t) : t.st = s.st := by
  unfold vec_reserve at h
  by_cases hroom : additional ≤ cap - len
  · rw [if_pos hroom] at h
    cases h
    rfl
  · rw [if_neg hroom] at h
    dsimp only at h
    generalize max (max (2 * cap) (len + additional)) (if size = 1 then 8 else 4) = c at h
    split at h
    · cases h
    · obtain ⟨a, u, halloc, hret⟩ := (run_bind_ok M).mp h
      cases hret
      exact (run_allocZeroed M halloc).1

end Vec

/-! ## Section 2: The descriptor table -/

structure FdTable where
  files : List (Option OpenFile)
  cap : Nat
  deriving DecidableEq, Repr

namespace FdTable

variable {σ : Type}

/-- The bytes of one `Option<OpenFile>`. -/
def slotSize : Nat := 40

def stdio : OpenFile :=
  { inode := 0, offset := 0, readable := true, writable := true, pipe_id := none }

/-- `FdTable::new`: stdin, stdout and stderr. -/
def new : FdTable := { files := [some stdio, some stdio, some stdio], cap := 64 }

/-- The lowest empty slot, or a new one at the end. -/
def alloc (t : FdTable) (file : OpenFile) : Code σ Halt (FdTable × Nat) := do
  match t.files.findIdx? (·.isNone) with
  | some i => return ({ t with files := t.files.set i (some file) }, i)
  | none =>
    let cap ← vec_reserve slotSize 3 t.files.length t.cap 1
    return ({ files := t.files ++ [some file], cap := cap }, t.files.length)

def get (t : FdTable) (fd : Nat) : Option OpenFile := t.files[fd]?.join

/-- Replace the open file of an occupied slot (`get` hands out a mutable reference). -/
def put (t : FdTable) (fd : Nat) (file : OpenFile) : FdTable :=
  { t with files := t.files.set fd (some file) }

def close (t : FdTable) (fd : Nat) : FdTable := { t with files := t.files.set fd none }

/-- `Vec::resize` with `None`. -/
def resize (t : FdTable) (n : Nat) : Code σ Halt FdTable := do
  if n ≤ t.files.length then
    return { t with files := t.files.take n }
  let cap ← vec_reserve slotSize 3 t.files.length t.cap (n - t.files.length)
  return { files := t.files ++ List.replicate (n - t.files.length) none, cap := cap }

def dup2 (t : FdTable) (oldfd newfd : Nat) : Code σ Halt (FdTable × Bool) := do
  match t.get oldfd with
  | none => return (t, false)
  | some file =>
    let t ← if newfd ≥ t.files.length then t.resize (wadd newfd 1) else pure t
    -- `newfd + 1` may have wrapped, and then the vector is empty
    if newfd ≥ t.files.length then
      throw (.panic "index out of bounds")
    return (t.put newfd file, true)

theorem mem_of_get {t : FdTable} {fd : Nat} {file : OpenFile} (h : t.get fd = some file) :
    some file ∈ t.files := by
  unfold get at h
  rw [Option.join_eq_some_iff] at h
  exact List.mem_of_getElem? h

theorem get_put (t : FdTable) (fd : Nat) (file : OpenFile) (fd' : Nat) :
    (t.put fd file).get fd' = if fd' = fd ∧ fd < t.files.length then some file else t.get fd' := by
  unfold put get
  by_cases hfd : fd = fd'
  · subst hfd
    by_cases hlt : fd < t.files.length <;> simp [hlt]
  · simp [hfd, Ne.symm hfd]

theorem get_close (t : FdTable) (fd fd' : Nat) :
    (t.close fd).get fd' = if fd' = fd then none else t.get fd' := by
  unfold close get
  by_cases hfd : fd = fd'
  · subst hfd
    by_cases hlt : fd < t.files.length <;> simp [hlt]
  · simp [hfd, Ne.symm hfd]

section Run

variable {η : Type} {M : Machine η Halt} {s s' : St η σ} {t t' : FdTable}

/-- `alloc` takes an empty slot. -/
theorem run_alloc {file : OpenFile} {i : Nat} (h : run M (t.alloc file) s = .ok (t', i) s') :
    s'.st = s.st ∧ t.get i = none ∧ ∀ fd, t'.get fd = if fd = i then some file else t.get fd := by
  unfold alloc at h
  split at h
  · next hi =>
    cases h
    obtain ⟨hlt, hnone, -⟩ := List.findIdx?_eq_some_iff_getElem.mp hi
    refine ⟨rfl, by simpa [get, hlt] using hnone, fun fd => ?_⟩
    have hput := get_put t i file fd
    simpa [put, hlt] using hput
  · obtain ⟨cap, u, hres, hret⟩ := (run_bind_ok M).mp h
    cases hret
    refine ⟨run_vec_reserve hres, by simp [get], fun fd => ?_⟩
    unfold get
    by_cases hfd : fd = t.files.length
    · simp [hfd]
    · by_cases hlt : fd < t.files.length
      · simp [hfd, List.getElem?_append_left hlt]
      · have hge : t.files.length + 1 ≤ fd := by omega
        simp [hfd, List.getElem?_eq_none (show (t.files ++ [some file]).length ≤ fd by simpa using hge),
          List.getElem?_eq_none (show t.files.length ≤ fd by omega)]

end Run

end FdTable

/-! ## Section 3: Pipes -/

structure PipeInner where
  buf : List UInt8
  head : Nat
  tail : Nat
  write_closed : Bool
  read_closed : Bool
  deriving DecidableEq, Repr

namespace PipeInner

def new : PipeInner :=
  { buf := List.replicate 4096 0, head := 0, tail := 0, write_closed := false, read_closed := false }

/-- The loop of `write`: store bytes until the buffer is full; how many were stored. -/
def push (p : PipeInner) : List UInt8 → PipeInner × Nat
  | [] => (p, 0)
  | b :: bs =>
    let next := (p.tail + 1) % p.buf.length
    if next = p.head then
      (p, 0)
    else
      let (p', written) := push { p with buf := p.buf.set p.tail b, tail := next } bs
      (p', written + 1)

def write (p : PipeInner) (data : List UInt8) : PipeInner × Nat :=
  if p.read_closed then (p, 0) else p.push data

/-- `read` into a buffer of `n` bytes: the bytes read. -/
def read (p : PipeInner) : Nat → PipeInner × List UInt8
  | 0 => (p, [])
  | n + 1 =>
    if p.head = p.tail then
      (p, [])
    else
      let b := p.buf.getD p.head 0
      let (p', out) := read { p with head := (p.head + 1) % p.buf.length } n
      (p', b :: out)

end PipeInner

/-! ## Section 4: Descriptors that are not files -/

inductive NscdPhase where
  | Header
  | Data
  | Done
  deriving DecidableEq, Repr

structure NscdState where
  phase : NscdPhase
  data : List UInt8
  offset : Nat
  deriving DecidableEq, Repr

inductive FakeFdType where
  | Nscd (state : NscdState)
  | InetSocket
  | Epoll
  | EventFd
  deriving DecidableEq, Repr

end Rvos
