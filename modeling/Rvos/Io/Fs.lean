import Rvos.Lib.ByteMem
import Rvos.Lib.Usize
import Rvos.Mm.Alloc

/-! # The RAM filesystem (`fs.rs`)

    Files are kept by path, and a second map gives each inode its path.
    Strings are the lists of their bytes; the maps are ordered by bytes, as
    the source's `BTreeMap<String, File>` is.

    A directory is a file of length zero: `is_dir` and `read_dir` know no
    other sign. -/

namespace Rvos

open Usize

/-- A string of the source, as its bytes. -/
abbrev Path : Type := List UInt8

/-- The bytes of a string literal. -/
def utf8 (s : String) : Path := s.toUTF8.toList

/-- A little-endian number of `n` bytes. -/
def leBytes (n v : Nat) : List UInt8 := (List.range n).map fun i => UInt8.ofNat (v / 256 ^ i)

@[simp] theorem length_leBytes (n v : Nat) : (leBytes n v).length = n := by
  simp [leBytes]

/-! ## Section 1: Files -/

/-- A file that never changes, or a vector of bytes with its capacity. -/
inductive FileContents where
  | Static (s : List UInt8)
  | Dynamic (v : List UInt8) (cap : Nat)
  deriving DecidableEq, Repr

structure File where
  data : FileContents
  deriving DecidableEq, Repr

def File.as_slice (f : File) : List UInt8 :=
  match f.data with
  | .Static s => s
  | .Dynamic v _ => v

def File.len (f : File) : Nat := f.as_slice.length

structure OpenFile where
  inode : Nat
  offset : Nat
  readable : Bool
  writable : Bool
  pipe_id : Option Nat
  deriving DecidableEq, Repr

/-- `FS`, `NEXT_INODE` and `INODE_MAP`. -/
structure Fs where
  files : Std.TreeMap Path File
  next_inode : Nat
  inode_map : Std.TreeMap Nat Path

namespace Fs

/-- The statics of `fs.rs` at their start. -/
def new : Fs := { files := ∅, next_inode := 1, inode_map := ∅ }

/-- `create_file_static` and `create_file_dynamic`: a new inode, and the file
    replaces any file of that path. -/
def create_file (fs : Fs) (path : Path) (data : FileContents) : Fs where
  files := fs.files.insert path ⟨data⟩
  next_inode := fs.next_inode + 1
  inode_map := fs.inode_map.insert fs.next_inode path

def mkdir (fs : Fs) (path : Path) : Fs := fs.create_file path (.Static [])

/-- The first inode, in order, whose path is `path`. -/
def lookup (fs : Fs) (path : Path) : Option Nat :=
  (fs.inode_map.toList.find? fun p => p.2 == path).map Prod.fst

/-- The file of an inode. -/
def file (fs : Fs) (inode : Nat) : Option File :=
  fs.inode_map[inode]?.bind fun path => fs.files[path]?

def file_size (fs : Fs) (inode : Nat) : Nat :=
  match fs.file inode with
  | some f => f.len
  | none => 0

def is_dir (fs : Fs) (path : Path) : Bool :=
  match fs.files[path]? with
  | some f => f.len == 0
  | none => false

def get_file_data (fs : Fs) (path : Path) : Option (List UInt8) :=
  fs.files[path]?.bind fun f =>
    match f.data with
    | .Static s => some s
    | .Dynamic _ _ => none

/-- `read_inode` into a buffer of `len` bytes: the bytes read.  Slicing a file
    past its end panics, also when nothing is to be read. -/
def read_inode (fs : Fs) (inode len offset : Nat) : Except Halt (List UInt8) :=
  match fs.file inode with
  | some f =>
    let data := f.as_slice
    let to_read := min (data.length - min offset data.length) len
    if wadd offset to_read > data.length then
      .error (.panic "range end index out of range for slice")
    else
      .ok ((data.drop offset).take to_read)
  | none => .ok []

/-! ## Section 2: Directory listings -/

/-- One entry of a listing: name, inode, type (4 directory, 8 file). -/
structure DirEntry where
  name : Path
  inode : Nat
  d_type : UInt8
  deriving DecidableEq, Repr

/-- The prefix shared by the paths inside a directory. -/
def dir_prefix (dir_path : Path) : Path :=
  if dir_path = utf8 "/" then utf8 "/" else dir_path ++ utf8 "/"

/-- The first component of the rest of a path. -/
def first_component (remainder : Path) : Path := remainder.takeWhile (· != 47)

/-- The loop of `read_dir` over the files: names not seen before are listed. -/
def scan (fs : Fs) (pre : Path) : List (Path × File) → List Path → List DirEntry
  | [], _ => []
  | (path_str, file) :: rest, seen =>
    if !pre.isPrefixOf path_str then
      scan fs pre rest seen
    else
      let remainder := path_str.drop pre.length
      if remainder.isEmpty then
        scan fs pre rest seen
      else
        let name := first_component remainder
        if seen.contains name then
          scan fs pre rest seen
        else
          let entry_inode := (fs.lookup path_str).getD 0
          let d_type := if file.len == 0 then 4 else 8
          ⟨name, entry_inode, d_type⟩ :: scan fs pre rest (name :: seen)

/-- All entries of the directory with this inode, the two dots first; `none`
    if there is no such file or it is not empty. -/
def entries (fs : Fs) (inode : Nat) : Option (List DirEntry) :=
  match fs.inode_map[inode]? with
  | none => none
  | some dir_path =>
    match fs.files[dir_path]? with
    | none => none
    | some f =>
      if f.len != 0 then
        none
      else
        let dots := [utf8 ".", utf8 ".."]
        some (dots.map (⟨·, inode, 4⟩) ++ scan fs ( dir_prefix dir_path) fs.files.toList dots)

/-- The `linux_dirent64` record of the entry with index `idx`. -/
def DirEntry.record (e : DirEntry) (idx : Nat) : List UInt8 :=
  let name_len := e.name.length + 1
  let reclen := (19 + name_len + 7) / 8 * 8
  leBytes 8 e.inode ++ leBytes 8 (idx + 1) ++ leBytes 2 reclen ++ [e.d_type] ++ e.name ++ [0] ++
    List.replicate (reclen - (19 + name_len)) 0

/-- The loop of `read_dir` over the entries from `idx` on: records, until one
    does not fit into `room` bytes; also how many were written. -/
def fill_records : List DirEntry → (idx room : Nat) → List UInt8 × Nat
  | [], _, _ => ([], 0)
  | e :: rest, idx, room =>
    let r := e.record idx
    if r.length > room then
      ([], 0)
    else
      let (bytes, n) := fill_records rest (idx + 1) (room - r.length)
      (r ++ bytes, n + 1)

/-- `read_dir` into a buffer of `len` bytes: the bytes written and the next offset. -/
def read_dir (fs : Fs) (inode len offset : Nat) : List UInt8 × Nat :=
  match fs.entries inode with
  | none => ([], offset)
  | some es =>
    if offset ≥ es.length then
      ([], offset)
    else
      let (bytes, n) := fill_records (es.drop offset) offset len
      (bytes, offset + n)

/-! ## Section 3: The files at boot -/

/-- The binaries embedded into the kernel. -/
structure Blobs where
  nginx_bin : List UInt8
  test_bin : List UInt8
  busybox : List UInt8
  nss_so : List UInt8

/-- The configuration under `/etc` and `/tmp`. -/
def config : List UInt8 := utf8 <|
  "\n" ++ "daemon off;\n" ++ "worker_processes 1;\n" ++
  "error_log /tmp/nginx_install/logs/error.log;\n" ++
  "pid /tmp/nginx_install/logs/nginx.pid;\n" ++ "events \x7b\n" ++
  "    worker_connections 1024;\n" ++ "\x7d\n" ++ "http \x7b\n" ++ "    server \x7b\n" ++
  "        listen 80;\n" ++ "        connection_pool_size 1024;\n" ++
  "        server_name localhost;\n" ++ "        location / \x7b\n" ++
  "            root /tmp/nginx_install/html;\n" ++ "            index index.html;\n" ++
  "        \x7d\n" ++ "    \x7d\n" ++ "\x7d\n"

/-- The configuration under `/usr/local`. -/
def local_config : List UInt8 := utf8 <|
  "\n" ++ "daemon off;\n" ++ "user root root;\n" ++ "worker_processes 1;\n" ++
  "error_log /usr/local/nginx/logs/error.log;\n" ++ "pid /usr/local/nginx/logs/nginx.pid;\n" ++
  "events \x7b\n" ++ "    worker_connections 1024;\n" ++ "\x7d\n" ++ "http \x7b\n" ++
  "    server \x7b\n" ++ "        listen 80;\n" ++ "        connection_pool_size 1024;\n" ++
  "        server_name localhost;\n" ++ "        location / \x7b\n" ++
  "            root /usr/local/nginx/html;\n" ++ "            index index.html;\n" ++
  "        \x7d\n" ++ "    \x7d\n" ++ "\x7d\n"

def html : List UInt8 := utf8 "<html><body><h1>Hello from RVOS nginx!</h1></body></html>"

/-- A call by which `init` creates a file. -/
inductive Creation where
  | mkdir (path : Path)
  | create_file_static (path : Path) (data : List UInt8)
  | create_file_dynamic (path : Path) (data : List UInt8)

def Creation.path : Creation → Path
  | mkdir path => path
  | create_file_static path _ => path
  | create_file_dynamic path _ => path

def Creation.contents : Creation → FileContents
  | mkdir _ => .Static []
  | create_file_static _ data => .Static data
  | create_file_dynamic _ data => .Dynamic data data.length

/-- The calls of `init`, in order. -/
def init_calls (b : Blobs) : List Creation :=
  [.mkdir (utf8 "/"),
   .mkdir (utf8 "/etc"),
   .mkdir (utf8 "/etc/nginx"),
   .mkdir (utf8 "/var"),
   .mkdir (utf8 "/var/log"),
   .mkdir (utf8 "/var/log/nginx"),
   .mkdir (utf8 "/usr"),
   .mkdir (utf8 "/usr/share"),
   .mkdir (utf8 "/usr/share/nginx"),
   .mkdir (utf8 "/usr/share/nginx/html"),
   .mkdir (utf8 "/usr/lib"),
   .mkdir (utf8 "/usr/lib/riscv64-linux-gnu"),
   .mkdir (utf8 "/usr/lib/riscv64-linux-gnu/tls"),
   .mkdir (utf8 "/usr/lib/tls"),
   .mkdir (utf8 "/lib"),
   .mkdir (utf8 "/lib/riscv64-linux-gnu"),
   .mkdir (utf8 "/lib/riscv64-linux-gnu/tls"),
   .mkdir (utf8 "/lib/tls"),
   .mkdir (utf8 "/tmp"),
   .mkdir (utf8 "/tmp/nginx_install"),
   .mkdir (utf8 "/tmp/nginx_install/logs"),
   .mkdir (utf8 "/tmp/nginx_install/conf"),
   .mkdir (utf8 "/tmp/nginx_install/html"),
   .mkdir (utf8 "/sbin"),
   .mkdir (utf8 "/sys"),
   .mkdir (utf8 "/sys/devices"),
   .mkdir (utf8 "/sys/devices/system"),
   .mkdir (utf8 "/sys/devices/system/cpu"),
   .mkdir (utf8 "/proc"),
   .create_file_static (utf8 "/sbin/nginx") b.nginx_bin,
   .create_file_static (utf8 "/test_malloc") b.test_bin,
   .mkdir (utf8 "/bin"),
   .create_file_static (utf8 "/bin/busybox") b.busybox,
   .create_file_static (utf8 "/bin/sh") b.busybox,
   .create_file_static (utf8 "/bin/ls") b.busybox,
   .create_file_static (utf8 "/bin/cat") b.busybox,
   .create_file_static (utf8 "/bin/echo") b.busybox,
   .create_file_static (utf8 "/bin/pwd") b.busybox,
   .create_file_static (utf8 "/bin/mkdir") b.busybox,
   .create_file_static (utf8 "/bin/ps") b.busybox,
   .create_file_static (utf8 "/etc/nginx/nginx.conf") config,
   .create_file_static (utf8 "/tmp/nginx_install/conf/nginx.conf") config,
   .create_file_static (utf8 "/usr/share/nginx/html/index.html") html,
   .create_file_static (utf8 "/tmp/nginx_install/html/index.html") html,
   .create_file_dynamic (utf8 "/var/log/nginx/error.log") [],
   .create_file_dynamic (utf8 "/var/log/nginx/access.log") [],
   .create_file_dynamic (utf8 "/tmp/nginx_install/logs/error.log") [],
   .create_file_dynamic (utf8 "/tmp/nginx_install/logs/access.log") [],
   .mkdir (utf8 "/usr/local"),
   .mkdir (utf8 "/usr/local/nginx"),
   .mkdir (utf8 "/usr/local/nginx/conf"),
   .mkdir (utf8 "/usr/local/nginx/logs"),
   .mkdir (utf8 "/usr/local/nginx/html"),
   .create_file_static (utf8 "/usr/local/nginx/conf/nginx.conf") local_config,
   .create_file_dynamic (utf8 "/usr/local/nginx/logs/error.log") [],
   .create_file_dynamic (utf8 "/usr/local/nginx/logs/access.log") [],
   .create_file_dynamic (utf8 "/usr/local/nginx/logs/nginx.pid") [],
   .create_file_static (utf8 "/usr/local/nginx/html/index.html") html,
   .create_file_static (utf8 "/sys/devices/system/cpu/online") (utf8 "0-0\n"),
   .create_file_static (utf8 "/proc/stat") (utf8 "cpu  0 0 0 0 0 0 0 0 0 0\n"),
   .create_file_static (utf8 "/proc/cpuinfo") (utf8 "processor\t: 0\n"),
   .create_file_static (utf8 "/etc/localtime") [],
   .create_file_static (utf8 "/etc/nsswitch.conf") (utf8 "passwd: files\n"),
   .create_file_static (utf8 "/etc/passwd") (utf8 "root:x:0:0:root:/root:/bin/sh\n"),
   .create_file_static (utf8 "/etc/group") (utf8 "root:x:0:\n"),
   .create_file_static (utf8 "/lib/riscv64-linux-gnu/libnss_files.so.2") b.nss_so,
   .create_file_static (utf8 "/lib/riscv64-linux-gnu/tls/libnss_files.so.2") b.nss_so,
   .create_file_static (utf8 "/usr/lib/riscv64-linux-gnu/libnss_files.so.2") b.nss_so,
   .create_file_static (utf8 "/usr/lib/riscv64-linux-gnu/tls/libnss_files.so.2") b.nss_so,
   .create_file_static (utf8 "/lib/libnss_files.so.2") b.nss_so,
   .create_file_static (utf8 "/lib/tls/libnss_files.so.2") b.nss_so,
   .create_file_static (utf8 "/usr/lib/libnss_files.so.2") b.nss_so,
   .create_file_static (utf8 "/usr/lib/tls/libnss_files.so.2") b.nss_so]

def create (fs : Fs) (c : Creation) : Fs := fs.create_file c.path c.contents

/-- `init`. -/
@[irreducible] def init (b : Blobs) : Fs := (init_calls b).foldl create new

end Fs

end Rvos
