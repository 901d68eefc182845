/-
  The process file system (kernel/src/fs/procfs.rs): `resolve_path` turns a path
  into an inode number, adding an offset for the kind of file to the process id
  and, for a descriptor, the descriptor shifted by 32 bits; `read` finds the
  file to generate from the number by range tests.

  The ranges are 0x10000 wide, and the shifted descriptor lies above all of
  them.  What a name denotes is therefore read back from its inode number only
  for process ids below 0x10000 and never for a descriptor; and the listing of
  the root directory stops at id 255.
-/

import OpenOS.Fs.Vfs
import OpenOS.Task.Conservation

namespace OpenOS.Procfs

open Base Fs Scheduler List Option
open BitVec (le_def lt_def ofNat toNat_add toNat_sub)

/-! ## Names and inode numbers -/

/-- The files that are not about a process. -/
inductive StaticFile
  | meminfo
  | uptime
  | version
  | cpuinfo
  | netIfconfig
  | netTcp
  | netUdp
  | netArp
  | netDev
deriving DecidableEq

/-- The files of a process, its descriptors apart. -/
inductive PidFile
  | cmdline
  | status
  | maps
  | environ
deriving DecidableEq

/-- ROOT_INO, NET_DIR_INO and the offset PID_DIR_OFFSET, PID_FD_OFFSET. -/
def rootIno : Word := 1
def netDirIno : Word := 5
def pidDirOffset : Word := 0x10000
def pidFdOffset : Word := 0x50000

def StaticFile.ino : StaticFile → Word
  | meminfo => 2
  | uptime => 3
  | version => 4
  | netIfconfig => 6
  | netTcp => 7
  | netUdp => 8
  | cpuinfo => 9
  | netArp => 10
  | netDev => 11

/-- PID_CMDLINE_OFFSET, PID_STATUS_OFFSET, PID_MAPS_OFFSET, PID_ENVIRON_OFFSET. -/
def PidFile.offset : PidFile → Word
  | cmdline => 0x20000
  | status => 0x30000
  | maps => 0x40000
  | environ => 0x60000

def StaticFile.name : StaticFile → String
  | meminfo => "meminfo"
  | uptime => "uptime"
  | version => "version"
  | cpuinfo => "cpuinfo"
  | netIfconfig => "net/ifconfig"
  | netTcp => "net/tcp"
  | netUdp => "net/udp"
  | netArp => "net/arp"
  | netDev => "net/dev"

def PidFile.name : PidFile → String
  | cmdline => "cmdline"
  | status => "status"
  | maps => "maps"
  | environ => "environ"

def staticFiles : List StaticFile :=
  [.meminfo, .uptime, .version, .cpuinfo, .netIfconfig, .netTcp, .netUdp, .netArp, .netDev]

def pidFiles : List PidFile := [.cmdline, .status, .maps, .environ]

/-! ## Resolving a path -/

/-- `resolve_fd_entry_path`; the outer `none` is an overflow that panics. -/
def resolveFdEntryPath (p : Profile) (pid : Word) (sub : List Char) : Option (Option Word) :=
  match splitSlash sub with
  | (_, none) => some none
  | (dir, some fdStr) =>
    if dir ≠ "fd".toList then some none
    else
      match parseU64 fdStr with
      | none => some none
      | some fd => ((p.add pidFdOffset pid).bind fun base => p.add base (fd <<< 32)).map some

/-- The offset for what follows the process id in a path. -/
def subOffset (sub : List Char) : Option Word :=
  if sub = [] ∨ sub = ['.'] then some pidDirOffset
  else if sub = "fd".toList then some pidFdOffset
  else (pidFiles.find? fun f => f.name.toList = sub).map PidFile.offset

def resolvePidPath (p : Profile) (path : List Char) : Option (Option Word) :=
  let parts := splitSlash path
  match parseU64 parts.1 with
  | none => some none
  | some pid =>
    let sub := parts.2.getD []
    match subOffset sub with
    | some offset => (p.add offset pid).map some
    | none => resolveFdEntryPath p pid sub

def resolvePath (p : Profile) (path : List Char) : Option (Option Word) :=
  let path := path.dropWhile (· = '/')
  if path = [] ∨ path = ['.'] then some (some rootIno)
  else if path = "net".toList then some (some netDirIno)
  else
    match staticFiles.find? fun f => f.name.toList = path with
    | some f => some (some f.ino)
    | none => resolvePidPath p path

/-! ## Reading an inode -/

/-- What `read` generates. -/
inductive Source
  | static (f : StaticFile)
  | pidFile (f : PidFile) (pid : Word)
  | pidFdEntry (pid fd : Word)
deriving DecidableEq

/-- The dispatch of `read` by inode number. -/
def source (ino : Word) : Except FsError Source :=
  if ino = rootIno ∨ ino = netDirIno then .error .notSupported
  else
    match staticFiles.find? fun f => f.ino = ino with
    | some f => .ok (.static f)
    | none =>
      if PidFile.cmdline.offset ≤ ino ∧ ino < PidFile.status.offset then
        .ok (.pidFile .cmdline (ino - PidFile.cmdline.offset))
      else if PidFile.status.offset ≤ ino ∧ ino < PidFile.maps.offset then
        .ok (.pidFile .status (ino - PidFile.status.offset))
      else if PidFile.maps.offset ≤ ino ∧ ino < pidFdOffset then
        .ok (.pidFile .maps (ino - PidFile.maps.offset))
      else if pidFdOffset ≤ ino ∧ ino < PidFile.environ.offset then
        let base := ino - pidFdOffset
        let pid := base &&& 0xFFFFFFFF
        let fd := base >>> 32
        -- reading the descriptor directory itself
        if fd = 0 then .error .notSupported
        else .ok (.pidFdEntry pid fd)
      else if PidFile.environ.offset ≤ ino then
        .ok (.pidFile .environ (ino - PidFile.environ.offset))
      else if pidDirOffset ≤ ino then .error .notSupported
      else .error .notFound

/-- Text of a task state in `read_pid_status`. -/
def stateName : TaskState → String
  | .ready => "Ready"
  | .running => "Running"
  | .blocked => "Blocked"
  | .terminated => "Terminated"

/-- Text of a region type in `read_pid_maps`. -/
def kindName : Memory.VmaType → String
  | .code => "code"
  | .data => "data"
  | .stack => "stack"
  | .heap => "heap"
  | .mmap => "mmap"
  | .fileMmap => "file-mmap"

/-- The format `:#018x`. -/
def hex18 (w : Word) : String :=
  let digits := Nat.toDigits 16 w.toNat
  "0x" ++ String.ofList (replicate (16 - digits.length) '0' ++ digits)

/-- A line of `read_pid_maps`; `none` when the end of the region overflows. -/
def mapsLine (p : Profile) (r : Memory.VmaRegion) : Option String :=
  (r.stop p).map fun stop =>
    hex18 r.start ++ "-" ++ hex18 stop ++ " " ++ (if r.flags.read then "r" else "-") ++
      (if r.flags.write then "w" else "-") ++ (if r.flags.execute then "x" else "-") ++ " " ++
      kindName r.kind ++ "\n"

/-- The text generated for a file of a task: `read_pid_cmdline`,
    `read_pid_status`, `read_pid_maps` and `read_pid_environ`. -/
def pidText (p : Profile) (t : Task) : PidFile → Option String
  | .cmdline => some (t.name ++ "\n")
  | .status =>
    some ("Name: " ++ t.name ++ "\nState: " ++ stateName t.state ++
      "\nPriority: " ++ toString t.priority.toNat ++ "\n")
  | .maps => (t.vmaList.mapM (mapsLine p)).map String.join
  | .environ => some ("\x00".intercalate (t.env.map fun q => q.1 ++ "=" ++ q.2))

section

variable (p : Profile) (s : Scheduler) (cpu : Cpu) (static : StaticFile → String)

/-- The content of a source; `static` is what the generators of the files that
    are not about a process return. -/
def content :
    Source → Option (Except FsError String)
  | .static f => some (.ok (static f))
  | .pidFile f pid =>
    match s.withTask cpu pid with
    | none => some (.error .notFound)
    | some t => (pidText p t f).map .ok
  | .pidFdEntry pid fd =>
    match s.withTask cpu pid with
    | none => some (.error .notFound)
    | some t =>
      match t.fdTable fd with
      | none => some (.error .notFound)
      | some entry => some (.ok (entry.path ++ "\n"))

/-- `read`: the bytes placed in a buffer of this length. -/
def read (ino offset : Word) (len : Nat) : Option (Except FsError (List Byte)) :=
  match source ino with
  | .error e => some (.error e)
  | .ok src => (content p s cpu static src).map fun r =>
    r.map fun text => ((utf8Bytes text).drop offset.toNat).take len

/-! ## The root directory -/

def enumeratePids : List Word :=
  ((range 256).map (ofNat 64)).filter fun pid =>
    match s.withTask cpu pid with
    | none => false
    | some t => t.state ≠ .terminated

def readdirRoot : List DirEntry :=
  [⟨".", rootIno, true⟩, ⟨"..", rootIno, true⟩, ⟨"meminfo", StaticFile.meminfo.ino, false⟩,
    ⟨"cpuinfo", StaticFile.cpuinfo.ino, false⟩, ⟨"uptime", StaticFile.uptime.ino, false⟩,
    ⟨"version", StaticFile.version.ino, false⟩, ⟨"net", netDirIno, true⟩] ++
  (enumeratePids s cpu).map fun pid =>
    ⟨String.ofList (decimal pid), pidDirOffset + pid, true⟩

end

/-! ## What the names should denote -/

/-- The names of the file system. -/
inductive Name
  | root
  | net
  | static (f : StaticFile)
  | pidDir (pid : Word)
  | pidFile (f : PidFile) (pid : Word)
  | fdDir (pid : Word)
  | fdEntry (pid fd : Word)
deriving DecidableEq

/-- The path of a name, relative to the mount point. -/
def Name.path : Name → List Char
  | root => []
  | net => "net".toList
  | static f => f.name.toList
  | pidDir pid => decimal pid
  | pidFile f pid => decimal pid ++ '/' :: f.name.toList
  | fdDir pid => decimal pid ++ '/' :: "fd".toList
  | fdEntry pid fd => decimal pid ++ '/' :: ("fd".toList ++ '/' :: decimal fd)

/-- The name is that of a file or directory of the system or of a task. -/
def Name.Exists (s : Scheduler) : Name → Prop
  | root | net | static _ => True
  | pidDir pid | pidFile _ pid | fdDir pid => ∃ t ∈ s.tasks, t.id = pid
  | fdEntry pid fd => ∃ t ∈ s.tasks, t.id = pid ∧ t.fdTable fd ≠ none

/-- The part of a text that a read with this offset and buffer returns. -/
def textSlice (text : String) (offset : Word) (len : Nat) : List Byte :=
  ((utf8Bytes text).drop offset.toNat).take len

/-- Reading a name gives what is generated for its task, kind and descriptor; no
    two names share an inode number; and the root directory lists every task. -/
structure NamesDenote (p : Profile) (s : Scheduler) (cpu : Cpu) : Prop where
  files : ∀ t ∈ s.tasks, ∀ f, ∃ ino, resolvePath p (Name.pidFile f t.id).path = some (some ino) ∧
    ∀ static offset len, read p s cpu static ino offset len =
      (pidText p t f).map fun text => .ok (textSlice text offset len)
  descriptors : ∀ t ∈ s.tasks, ∀ fd entry, t.fdTable fd = some entry →
    ∃ ino, resolvePath p (Name.fdEntry t.id fd).path = some (some ino) ∧
      ∀ static offset len, read p s cpu static ino offset len =
        some (.ok (textSlice (entry.path ++ "\n") offset len))
  distinct : ∀ (n₁ n₂ : Name) (ino : Word), n₁.Exists s → n₂.Exists s →
    resolvePath p n₁.path = some (some ino) → resolvePath p n₂.path = some (some ino) → n₁ = n₂
  listed : ∀ t ∈ s.tasks, ∃ e ∈ readdirRoot s cpu, e.name = String.ofList (decimal t.id)

/-! ## Paths of names resolve to their inode number -/

/-- The inode number of a name, checked additions included. -/
def Name.ino (p : Profile) : Name → Option Word
  | root => some rootIno
  | net => some netDirIno
  | static f => some f.ino
  | pidDir pid => p.add pidDirOffset pid
  | pidFile f pid => p.add f.offset pid
  | fdDir pid => p.add pidFdOffset pid
  | fdEntry pid fd => (p.add pidFdOffset pid).bind fun base => p.add base (fd <<< 32)

theorem resolvePath_decimal (p : Profile) (pid : Word) (rest : List Char) :
    resolvePath p (decimal pid ++ rest) = resolvePidPath p (decimal pid ++ rest) := by
  obtain ⟨c, cs, hd⟩ := exists_cons_of_ne_nil (decimal_ne_nil pid)
  have hdigit : c.isDigit = true := isDigit_of_mem_decimal (w := pid) (by simp [hd])
  have hne : ∀ d : Char, d.isDigit = false → c ≠ d := by
    rintro d hfalse rfl
    rw [hdigit] at hfalse
    cases hfalse
  -- none of the fixed names starts with a digit
  have hstatic : staticFiles.find? (fun f => f.name.toList = c :: (cs ++ rest)) = none := by
    rw [find?_eq_none]
    intro f _ heq
    have hhead : f.name.toList.head? = some c := by
      rw [of_decide_eq_true heq]
      rfl
    cases f <;> exact hne _ (by decide) (some.inj hhead).symm
  rw [hd, cons_append, resolvePath]
  rw [dropWhile_cons_of_neg (by simpa using hne '/' (by decide))]
  have hdot : ¬ (c :: (cs ++ rest) = [] ∨ c :: (cs ++ rest) = ['.']) := by
    rintro (h | h)
    · cases h
    · exact hne '.' (by decide) (cons_eq_cons.mp h).1
  have hnet : c :: (cs ++ rest) ≠ "net".toList := by
    intro h
    exact hne 'n' (by decide) (cons_eq_cons.mp h).1
  simp only [if_neg hdot, if_neg hnet, hstatic]

theorem resolvePidPath_dir (p : Profile) (pid : Word) :
    resolvePidPath p (decimal pid) = (p.add pidDirOffset pid).map some := by
  have hsplit := splitSlash_of_notMem (notMem_decimal (by decide) pid)
  simp only [resolvePidPath, hsplit, parseU64_decimal]
  rfl

theorem resolvePidPath_sub (p : Profile) (pid : Word) (sub : List Char) :
    resolvePidPath p (decimal pid ++ '/' :: sub) =
      match subOffset sub with
      | some offset => (p.add offset pid).map some
      | none => resolveFdEntryPath p pid sub := by
  have hsplit := splitSlash_append (notMem_decimal (by decide) pid) sub
  simp [resolvePidPath, hsplit, parseU64_decimal]

theorem subOffset_pidFile (f : PidFile) : subOffset f.name.toList = some f.offset := by
  cases f <;> decide

theorem subOffset_fdEntry (fd : Word) : subOffset ("fd".toList ++ '/' :: decimal fd) = none := by
  have hfind : pidFiles.find? (fun f => f.name.toList = "fd".toList ++ '/' :: decimal fd) = none := by
    rw [find?_eq_none]
    intro f _ heq
    have hhead : f.name.toList.head? = some 'f' := by
      rw [of_decide_eq_true heq]
      rfl
    cases f <;> revert hhead <;> decide
  have hlong : "fd".toList ++ '/' :: decimal fd ≠ "fd".toList := by
    intro h
    have hlen := congrArg length h
    simp at hlen
  rw [subOffset, if_neg (by simp), if_neg hlong, hfind]
  rfl

theorem resolvePath_name (p : Profile) (n : Name) : resolvePath p n.path = (n.ino p).map some := by
  cases n with
  | root => rfl
  | net => rfl
  | static f => cases f <;> rfl
  | pidDir pid =>
    have h := resolvePath_decimal p pid []
    rw [append_nil] at h
    rw [Name.path, h, resolvePidPath_dir]
    rfl
  | pidFile f pid =>
    rw [Name.path, resolvePath_decimal, resolvePidPath_sub, subOffset_pidFile]
    rfl
  | fdDir pid =>
    rw [Name.path, resolvePath_decimal, resolvePidPath_sub]
    rfl
  | fdEntry pid fd =>
    have hsplit := splitSlash_append (a := "fd".toList) (by decide) (decimal fd)
    rw [Name.path, resolvePath_decimal, resolvePidPath_sub, subOffset_fdEntry]
    simp only [resolveFdEntryPath, hsplit, ne_eq, not_true_eq_false, if_false,
      parseU64_decimal, Name.ino]

/-! ## Inode numbers read back -/

theorem find_static_of_le (h : 0x10000 ≤ ino.toNat) :
    staticFiles.find? (fun f => f.ino = ino) = none := by
  rw [find?_eq_none]
  intro f _ heq
  have hsmall : f.ino.toNat < 0x10000 := by cases f <;> decide
  rw [of_decide_eq_true heq] at hsmall
  omega

theorem not_fixed_of_le (h : 0x10000 ≤ ino.toNat) : ¬ (ino = rootIno ∨ ino = netDirIno) := by
  rintro (rfl | rfl)
  · exact absurd h (by decide)
  · exact absurd h (by decide)

theorem toNat_offsets :
    PidFile.cmdline.offset.toNat = 0x20000 ∧ PidFile.status.offset.toNat = 0x30000 ∧
      PidFile.maps.offset.toNat = 0x40000 ∧ pidFdOffset.toNat = 0x50000 ∧
      PidFile.environ.offset.toNat = 0x60000 := by
  decide

theorem source_pidFile (h : pid.toNat < 0x10000) (f : PidFile) :
    source (f.offset + pid) = .ok (.pidFile f pid) := by
  obtain ⟨hcmdline, hstatus, hmaps, hfd, henviron⟩ := toNat_offsets
  have hoff : f.offset.toNat ≤ 0x60000 ∧ 0x20000 ≤ f.offset.toNat := by cases f <;> decide
  have hsum : (f.offset + pid).toNat = f.offset.toNat + pid.toNat := by
    rw [toNat_add]
    omega
  have hsub : f.offset + pid - f.offset = pid := by
    rw [BitVec.add_comm, BitVec.add_sub_cancel]
  have hbig : 0x10000 ≤ (f.offset + pid).toNat := by omega
  rw [source, if_neg (not_fixed_of_le hbig), find_static_of_le hbig]
  simp only [le_def, lt_def, hsum, hcmdline, hstatus, hmaps, hfd, henviron]
  -- the number is in the range of its own kind and in no earlier one
  cases f with
  | cmdline => rw [if_pos (by omega), hsub]
  | status => rw [if_neg (by omega), if_pos (by omega), hsub]
  | maps => rw [if_neg (by omega), if_neg (by omega), if_pos (by omega), hsub]
  | environ =>
    rw [if_neg (by omega), if_neg (by omega), if_neg (by omega), if_neg (by omega),
      if_pos (by omega), hsub]

theorem toNat_shift_fd (fd : Word) : (fd <<< 32).toNat = fd.toNat % 2 ^ 32 * 2 ^ 32 := by
  rw [BitVec.toNat_shiftLeft, Nat.shiftLeft_eq]
  omega

/-- The number of a descriptor is read back as the descriptor directory, when the shift
    has cut it to zero, or as the environment of a task with a large id. -/
theorem source_fdEntry (h : pid.toNat < 256) (fd : Word) :
    source (pidFdOffset + pid + fd <<< 32) = .error .notSupported ∨
      ∃ pid' : Word, 256 ≤ pid'.toNat ∧
        source (pidFdOffset + pid + fd <<< 32) = .ok (.pidFile .environ pid') := by
  obtain ⟨hcmdline, hstatus, hmaps, hoff, henv⟩ := toNat_offsets
  have hshift := toNat_shift_fd fd
  have hsum : (pidFdOffset + pid + fd <<< 32).toNat =
      0x50000 + pid.toNat + fd.toNat % 2 ^ 32 * 2 ^ 32 := by
    rw [toNat_add, toNat_add, hshift, hoff]
    omega
  have hbig : 0x10000 ≤ (pidFdOffset + pid + fd <<< 32).toNat := by omega
  rw [source, if_neg (not_fixed_of_le hbig), find_static_of_le hbig]
  simp only [le_def, lt_def, hsum, hcmdline, hstatus, hmaps, hoff, henv]
  rw [if_neg (by omega), if_neg (by omega), if_neg (by omega)]
  by_cases hzero : fd.toNat % 2 ^ 32 = 0
  · -- the descriptor is lost
    left
    have hfd : (pidFdOffset + pid + fd <<< 32 - pidFdOffset) >>> 32 = 0#64 := by
      apply BitVec.eq_of_toNat_eq
      rw [BitVec.toNat_ushiftRight, Nat.shiftRight_eq_div_pow, toNat_sub, hsum, hoff, hzero]
      show _ = 0
      omega
    rw [if_pos ⟨by omega, by omega⟩]
    simp only [hfd]
    rfl
  · right
    refine ⟨pidFdOffset + pid + fd <<< 32 - PidFile.environ.offset, ?_, ?_⟩
    · rw [toNat_sub, hsum, henv]
      omega
    · rw [if_neg (by omega), if_pos (by omega)]

/-! ## When the names denote what they say -/

theorem mem_enumeratePids :
    pid ∈ enumeratePids s cpu ↔
      pid.toNat < 256 ∧ ∃ t, s.withTask cpu pid = some t ∧ t.state ≠ .terminated := by
  have hrange : pid ∈ (range 256).map (ofNat 64) ↔ pid.toNat < 256 := by
    rw [List.mem_map]
    constructor
    · rintro ⟨n, hn, rfl⟩
      rw [mem_range] at hn
      rw [BitVec.toNat_ofNat]
      omega
    · intro h
      exact ⟨pid.toNat, mem_range.mpr h, by rw [BitVec.ofNat_toNat, BitVec.setWidth_eq]⟩
  rw [enumeratePids, mem_filter, hrange]
  cases s.withTask cpu pid with
  | none => simp
  | some t => simp

theorem mem_readdirRoot_decimal :
    (∃ e ∈ readdirRoot s cpu, e.name = String.ofList (decimal pid)) ↔
      pid ∈ enumeratePids s cpu := by
  constructor
  · rintro ⟨e, he, hname⟩
    rw [readdirRoot, mem_append] at he
    rcases he with hfixed | hpid
    · -- a fixed name does not start with a digit
      obtain ⟨c, cs, hd⟩ := exists_cons_of_ne_nil (decimal_ne_nil pid)
      have hdigit : c.isDigit = true := isDigit_of_mem_decimal (w := pid) (by simp [hd])
      have hhead : e.name.toList.head? = some c := by
        rw [hname, String.toList_ofList, hd]
        rfl
      have hnodigit : ∀ e' ∈ [(⟨".", rootIno, true⟩ : DirEntry), ⟨"..", rootIno, true⟩,
          ⟨"meminfo", StaticFile.meminfo.ino, false⟩, ⟨"cpuinfo", StaticFile.cpuinfo.ino, false⟩,
          ⟨"uptime", StaticFile.uptime.ino, false⟩, ⟨"version", StaticFile.version.ino, false⟩,
          ⟨"net", netDirIno, true⟩], (e'.name.toList.head?.any Char.isDigit) = false := by
        decide
      have hfalse := hnodigit e hfixed
      rw [hhead, any_some, hdigit] at hfalse
      cases hfalse
    · obtain ⟨pid', hpid', rfl⟩ := mem_map.mp hpid
      have heq := congrArg String.toList hname
      rw [String.toList_ofList, String.toList_ofList] at heq
      rwa [← decimal_injective heq]
  · intro h
    exact ⟨_, mem_append_right _ (mem_map.mpr ⟨pid, h, rfl⟩), rfl⟩

theorem read_pidFile (hsmall : t.id.toNat < 0x10000) (hfind : s.withTask cpu t.id = some t)
    (f : PidFile) (static : StaticFile → String) (offset : Word) (len : Nat) :
    read p s cpu static (f.offset + t.id) offset len =
      (pidText p t f).map fun text => .ok (textSlice text offset len) := by
  simp only [read, source_pidFile hsmall, content, hfind, Option.map_map]
  rfl

/-- Reading a descriptor of a task is an error, when all ids are below 256. -/
theorem read_fdEntry (p : Profile) (cpu : Cpu) (hids : ∀ t' ∈ s.tasks, t'.id.toNat < 256)
    (ht : t ∈ s.tasks) (fd : Word) (static : StaticFile → String) (offset : Word) (len : Nat) :
    ∃ e, read p s cpu static (pidFdOffset + t.id + fd <<< 32) offset len = some (.error e) := by
  rcases source_fdEntry (hids t ht) fd with hdir | ⟨pid', hbig, henviron⟩
  · exact ⟨.notSupported, by rw [read, hdir]⟩
  have hnone : s.withTask cpu pid' = none := by
    rw [eq_none_iff_forall_ne_some]
    intro t' hfind
    obtain ⟨hid, ht'⟩ := mem_tasks_of_withTask hfind
    have hlt := hids t' ht'
    rw [hid] at hlt
    omega
  refine ⟨.notFound, ?_⟩
  simp only [read, henviron, content, hnone]
  rfl

/-- The kind of a name and its number within the kind. -/
def Name.code : Name → Nat × Nat
  | root => (0, 1)
  | net => (0, 5)
  | static f => (0, f.ino.toNat)
  | pidDir pid => (1, pid.toNat)
  | pidFile .cmdline pid => (2, pid.toNat)
  | pidFile .status pid => (3, pid.toNat)
  | pidFile .maps pid => (4, pid.toNat)
  | fdDir pid => (5, pid.toNat)
  | pidFile .environ pid => (6, pid.toNat)
  | fdEntry pid fd => (fd.toNat + 7, pid.toNat)

/-- The name with this code. -/
def Name.ofCode : Nat × Nat → Option Name
  | (0, 1) => some root
  | (0, 5) => some net
  | (0, n) => (staticFiles.find? fun f => f.ino.toNat = n).map static
  | (1, n) => some (pidDir (ofNat 64 n))
  | (2, n) => some (pidFile .cmdline (ofNat 64 n))
  | (3, n) => some (pidFile .status (ofNat 64 n))
  | (4, n) => some (pidFile .maps (ofNat 64 n))
  | (5, n) => some (fdDir (ofNat 64 n))
  | (6, n) => some (pidFile .environ (ofNat 64 n))
  | (k + 7, n) => some (fdEntry (ofNat 64 n) (ofNat 64 k))

theorem ofCode_code (n : Name) : Name.ofCode n.code = some n := by
  cases n with
  | root => rfl
  | net => rfl
  | static f => cases f <;> rfl
  | pidDir pid => simp [Name.code, Name.ofCode]
  | pidFile f pid => cases f <;> simp [Name.code, Name.ofCode]
  | fdDir pid => simp [Name.code, Name.ofCode]
  | fdEntry pid fd => simp [Name.code, Name.ofCode]

theorem code_injective {n₂ : Name} (h : n₁.code = n₂.code) : n₁ = n₂ := by
  have heq : some n₁ = some n₂ := by rw [← ofCode_code n₁, h, ofCode_code]
  exact some.inj heq

/-- The process id in a name. -/
def Name.pid : Name → Nat
  | root | net | static _ => 0
  | pidDir pid | pidFile _ pid | fdDir pid | fdEntry pid _ => pid.toNat

/-- Below 0x10000 the inode number is the code, unless it is a descriptor's. -/
theorem ino_eq_code {n : Name} (hsmall : n.pid < 0x10000) (hfd : ∀ pid fd, n ≠ .fdEntry pid fd)
    (h : n.ino p = some ino) : ino.toNat = 0x10000 * n.code.1 + n.code.2 ∧ n.code.2 < 0x10000 := by
  have hadd : ∀ (offset pid : Word), offset.toNat ≤ 0x60000 → pid.toNat < 0x10000 →
      p.add offset pid = some ino → ino.toNat = offset.toNat + pid.toNat := by
    intro offset pid hoff hpid hsum
    rw [Profile.eq_add_of_add_eq_some hsum, toNat_add]
    omega
  cases n with
  | root =>
    cases h
    decide
  | net =>
    cases h
    decide
  | static f =>
    cases h
    cases f <;> decide
  | pidDir pid => exact ⟨hadd _ pid (by decide) hsmall h, hsmall⟩
  | pidFile f pid => cases f <;> exact ⟨hadd _ pid (by decide) hsmall h, hsmall⟩
  | fdDir pid => exact ⟨hadd _ pid (by decide) hsmall h, hsmall⟩
  | fdEntry pid fd => exact absurd rfl (hfd pid fd)

/-- The process file system denotes what its names say exactly when every task
    has an id below 256, no open descriptor, and is not migrating. -/
theorem namesDenote_iff (p : Profile) {s : Scheduler} (cpu : Cpu) (hids : s.ids.Nodup)
    (hlive : ∀ t ∈ s.tasks, t.state ≠ .terminated) :
    NamesDenote p s cpu ↔
      ∀ t ∈ s.tasks, t.id.toNat < 256 ∧ (∀ fd, t.fdTable fd = none) ∧ t ∉ s.migration := by
  constructor
  · intro h
    have hlisted : ∀ t ∈ s.tasks, t.id.toNat < 256 ∧ ∃ t', s.withTask cpu t.id = some t' := by
      intro t ht
      obtain ⟨hlt, t', hfind, -⟩ :=
        mem_enumeratePids.mp (mem_readdirRoot_decimal.mp (h.listed t ht))
      exact ⟨hlt, t', hfind⟩
    have hsmall : ∀ t ∈ s.tasks, t.id.toNat < 256 := fun t ht => (hlisted t ht).1
    intro t ht
    refine ⟨hsmall t ht, ?_, ?_⟩
    · intro fd
      rw [eq_none_iff_forall_ne_some]
      intro entry hentry
      obtain ⟨ino, hino, hread⟩ := h.descriptors t ht fd entry hentry
      -- the sum does not overflow, so the number is the one `read_fdEntry` is about
      have hbase := p.add_eq_some_of_lt (a := pidFdOffset) (b := t.id) (by
        have := hsmall t ht
        simp only [pidFdOffset]
        show 0x50000 + _ < 2 ^ 64
        omega)
      rw [resolvePath_name, Name.ino, hbase, bind_some] at hino
      obtain ⟨ino', hsum, heq⟩ := map_eq_some_iff.mp hino
      cases heq
      rw [Profile.eq_add_of_add_eq_some hsum] at hread
      obtain ⟨e, herr⟩ := read_fdEntry p cpu hsmall ht fd (fun _ => "") 0 0
      have hok := (hread (fun _ => "") 0 0).symm.trans herr
      cases hok
    · intro hmigration
      obtain ⟨t', hfind⟩ := (hlisted t ht).2
      rw [withTask_of_migrating hids cpu hmigration] at hfind
      cases hfind
  · intro h
    have hfind : ∀ t ∈ s.tasks, s.withTask cpu t.id = some t := by
      intro t ht
      apply withTask_of_mem hids
      rcases mem_tasks.mp ht with hready | hblocked | hmigration
      · exact .inl hready
      · exact .inr hblocked
      · exact absurd hmigration (h t ht).2.2
    have hexists : ∀ n : Name, n.Exists s →
        n.pid < 0x10000 ∧ ∀ pid fd, n ≠ .fdEntry pid fd := by
      intro n hn
      have hpid : ∀ pid, (∃ t ∈ s.tasks, t.id = pid) → pid.toNat < 0x10000 := by
        rintro pid ⟨t, ht, rfl⟩
        have := (h t ht).1
        omega
      cases n with
      | root => exact ⟨by decide, fun _ _ => nofun⟩
      | net => exact ⟨by decide, fun _ _ => nofun⟩
      | static f => exact ⟨by simp [Name.pid], fun _ _ => nofun⟩
      | pidDir pid => exact ⟨hpid pid hn, fun _ _ => nofun⟩
      | pidFile f pid => exact ⟨hpid pid hn, fun _ _ => nofun⟩
      | fdDir pid => exact ⟨hpid pid hn, fun _ _ => nofun⟩
      | fdEntry pid fd =>
        obtain ⟨t, ht, -, hopen⟩ := hn
        exact absurd ((h t ht).2.1 fd) hopen
    constructor
    · intro t ht f
      have hsmall : t.id.toNat < 0x10000 := by
        have := (h t ht).1
        omega
      refine ⟨f.offset + t.id, ?_, read_pidFile hsmall (hfind t ht) f⟩
      have hoff : f.offset.toNat ≤ 0x60000 := by cases f <;> decide
      rw [resolvePath_name, Name.ino, p.add_eq_some_of_lt (by omega)]
      rfl
    · intro t ht fd entry hentry
      rw [(h t ht).2.1 fd] at hentry
      cases hentry
    · intro n₁ n₂ ino hn₁ hn₂ h₁ h₂
      rw [resolvePath_name] at h₁ h₂
      obtain ⟨i₁, hi₁, heq₁⟩ := map_eq_some_iff.mp h₁
      obtain ⟨i₂, hi₂, heq₂⟩ := map_eq_some_iff.mp h₂
      cases heq₁
      cases heq₂
      obtain ⟨hcode₁, hlt₁⟩ := ino_eq_code (hexists n₁ hn₁).1 (hexists n₁ hn₁).2 hi₁
      obtain ⟨hcode₂, hlt₂⟩ := ino_eq_code (hexists n₂ hn₂).1 (hexists n₂ hn₂).2 hi₂
      exact code_injective (Prod.ext (by omega) (by omega))
    · intro t ht
      exact mem_readdirRoot_decimal.mpr
        (mem_enumeratePids.mpr ⟨(h t ht).1, t, hfind t ht, hlive t ht⟩)

/-- Task 2, with descriptor 2 open on a file. -/
def oneOpen : Scheduler :=
  { empty with
    blocked := [{ Task.new 2 5 with
      state := .blocked, fdTable := fun fd => if fd = 2 then some ⟨"/notes", 1, 0⟩ else none }] }

theorem tasks_oneOpen : oneOpen.tasks = {{ Task.new 2 5 with
    state := .blocked, fdTable := fun fd => if fd = 2 then some ⟨"/notes", 1, 0⟩ else none }} := by
  simp [oneOpen, tasks, readyTasks, empty]

theorem namesDenote_iff_oneOpen : ¬ NamesDenote .dev oneOpen bootCpu := by
  rw [namesDenote_iff .dev bootCpu, tasks_oneOpen]
  · intro h
    cases (h _ (Multiset.mem_singleton_self _)).2.1 2
  · rw [ids, tasks_oneOpen]
    simp
  · rw [tasks_oneOpen]
    simp

/-- The path 2/fd/2 of an open descriptor resolves to an inode that reads as the
    environment of a task that does not exist. -/
theorem descriptor_read_as_environ :
    (oneOpen.withTask bootCpu 2).bind (fun t => t.fdTable 2) = some ⟨"/notes", 1, 0⟩ ∧
      resolvePath .dev "2/fd/2".toList = some (some 0x200050002) ∧
      source 0x200050002 = .ok (.pidFile .environ 0x1ffff0002) ∧
      ∀ static offset len,
        read .dev oneOpen bootCpu static 0x200050002 offset len = some (.error .notFound) := by
  refine ⟨by decide, by decide, by decide, fun static offset len => rfl⟩

end OpenOS.Procfs
