import LimeOS.Impl.State

/-!
# `filesystem.c`

The image is the bytes from `fs_start` on, by their offset. The code computes
addresses in 32-bit arithmetic, so an offset is taken modulo `2³²` where it is
used. The boot block starts with the numbers of directory entries and of
inodes; directory entry `i` is the 64 bytes at `64 (i + 1)`, inode `i` the 4 KB
at `4096 (i + 1)`, and the data blocks follow the inodes.
-/

namespace LimeOS

abbrev Image := Nat → Byte

namespace Image

variable (img : Image)

def at32 (a : Nat) : Byte := img (a % 2 ^ 32)

/-- The little-endian word at an offset. -/
def word (a : Nat) : Nat :=
  (img.at32 a).toNat + 2 ^ 8 * (img.at32 (a + 1)).toNat + 2 ^ 16 * (img.at32 (a + 2)).toNat +
    2 ^ 24 * (img.at32 (a + 3)).toNat

/-- `*((int*)fs_start)`. -/
def dentryCount : Int := toI32 (img.word 0)

/-- `*((int*)(fs_start + 4))`, as a `uint32_t`. -/
def inodeCount : Nat := img.word 4

end Image

/-- `dentry_t`, less its reserved bytes. -/
structure Dentry where
  fileName : List Byte
  fileType : Int
  inodeNumber : Int
  deriving DecidableEq

section

variable (img : Image)

/-- The copy of directory entry `i`. -/
def dentryAt (i : Nat) : Dentry where
  fileName := (List.range MAX_NAME_LENGTH).map fun k => img.at32 ((i + 1) * 64 + k)
  fileType := toI32 (img.word ((i + 1) * 64 + 32))
  inodeNumber := toI32 (img.word ((i + 1) * 64 + 36))

/-- Whether entry `d` matches a name: its bytes one by one (those of the entry
are signed, those of the name are not), and a NUL after a name shorter than 32. -/
def nameMatches (fname : CString) (d : Dentry) : Bool :=
  let nameLength := min fname.1.length MAX_NAME_LENGTH
  ((List.range nameLength).all fun j => toI8 (d.fileName.getD j 0#8) = ((fname.1.getD j 0#8).toNat : Int)) &&
    (MAX_NAME_LENGTH ≤ nameLength || d.fileName.getD nameLength 0#8 = 0#8)

/-- `read_dentry_by_name`: the entry copied to the destination, `none` for the result `-1`. -/
def readDentryByName (fname : CString) : Option Dentry :=
  ((List.range img.dentryCount.toNat).map (dentryAt img)).find? (nameMatches fname)

/-- The inner loop of `read_dentry_by_name`, from index `j` with `n` bytes to go: the index it ends
at, and `match`. -/
def matchLoop (fileName : List Byte) (fname : CString) : Nat → Nat → Nat × Bool
  | 0, j => (j, true)
  | n + 1, j =>
    if toI8 (fileName.getD j 0#8) ≠ ((fname.1.getD j 0#8).toNat : Int) then (j, false)
    else matchLoop fileName fname n (j + 1)

/-- The outer loop, from entry `i` with `n` entries to go. -/
def lookupLoop (fname : CString) (dentry : Dentry) : Nat → Nat → Int × Dentry
  | 0, _ => (-1, dentry)
  | n + 1, i =>
    let current := dentryAt img i
    let r := matchLoop current.fileName fname (min fname.1.length MAX_NAME_LENGTH) 0
    let isMatch :=
      if r.2 ∧ r.1 < MAX_NAME_LENGTH then
        if current.fileName.getD r.1 0#8 ≠ 0#8 then false else r.2
      else r.2
    if isMatch then (0, current) else lookupLoop fname dentry n (i + 1)

/-- `read_dentry_by_name` with its destination `dentry`, loop by loop. -/
def readDentryByNameTo (fname : CString) (dentry : Dentry) : Int × Dentry :=
  lookupLoop img fname dentry img.dentryCount.toNat 0

/-- `read_dentry_by_index`. -/
def readDentryByIndex (index : Nat) : Option Dentry :=
  if index > toU32 img.dentryCount then none else some (dentryAt img index)

/-- `read_dentry_by_index` with its destination `dentry`. -/
def readDentryByIndexTo (index : Nat) (dentry : Dentry) : Int × Dentry :=
  if index > toU32 img.dentryCount then (-1, dentry) else (0, dentryAt img index)

/-- The offset of an inode. -/
def inodePtr (inode : Nat) : Nat := (1 + inode) * FOUR_KB % 2 ^ 32

/-- `inode_ptr->length`, as a `uint32_t`. -/
def inodeLength (inode : Nat) : Nat := img.word (inodePtr inode)

/-- `inode_ptr->data_block_numbers[k]`. -/
def dataBlockNumber (inode k : Nat) : Nat := img.word (inodePtr inode + 4 + 4 * k)

/-- The offset of the `k`-th data block of an inode. -/
def dataBlockAddress (inode k : Nat) : Nat :=
  (img.inodeCount + 1 + dataBlockNumber img inode k) * FOUR_KB % 2 ^ 32

/-- `read_data`'s first loop: the byte number and data block index of an offset. -/
def splitOffset : Nat → Nat → Nat → Nat × Nat
  | 0, byteNumber, dataBlockIndex => (byteNumber, dataBlockIndex)
  | n + 1, byteNumber, dataBlockIndex =>
    if byteNumber ≥ FOUR_KB then splitOffset n (byteNumber - FOUR_KB) (dataBlockIndex + 1)
    else (byteNumber, dataBlockIndex)

/-- The variables of `read_data`'s copying loop. -/
structure Walk where
  copiedCount : Nat
  byteNumber : Nat
  offset : Nat
  dataBlockIndex : Nat
  dataBlockAddress : Nat
  buf : Mem

/-- One iteration, before the test for the end of the file. -/
def Walk.next (inode : Nat) (w : Walk) : Walk :=
  let w := { w with
    buf := w.buf.store w.copiedCount (img.at32 (w.dataBlockAddress + w.byteNumber))
    copiedCount := w.copiedCount + 1
    byteNumber := w.byteNumber + 1
    offset := w.offset + 1 }
  if w.byteNumber ≥ FOUR_KB then
    { w with
      byteNumber := 0
      dataBlockIndex := w.dataBlockIndex + 1
      dataBlockAddress := LimeOS.dataBlockAddress img inode (w.dataBlockIndex + 1) }
  else w

/-- `read_data`'s copying loop with `n` bytes to go. -/
def Walk.copy (inode : Nat) : Nat → Walk → Walk
  | 0, w => w
  | n + 1, w =>
    let w := w.next img inode
    if w.offset = inodeLength img inode then w else Walk.copy inode n w

/-- `read_data`: the result and the buffer. -/
def readData (inode offset : Nat) (buf : Mem) (length : Nat) : Int × Mem :=
  if offset ≥ inodeLength img inode then (0, buf)
  else
    -- an offset takes fewer subtractions than its value
    let p := splitOffset offset offset 0
    let w := Walk.copy img inode length
      ⟨0, p.1, offset, p.2, dataBlockAddress img inode p.2, buf⟩
    (toI32 w.copiedCount, w.buf)

/-- `read_file`. -/
def readFile (s : State) (fd : Nat) (buf : Mem) (nbytes : Int) : Int × Mem × State :=
  let e := s.curPcb.fdEntry fd
  let r := readData img (toU32 e.inodeIndex) (toU32 e.filePosition) buf (toU32 nbytes)
  (r.1, r.2, s.setFd fd { e with filePosition := toI32 (e.filePosition + r.1) })

/-- `read_directory`'s loop: a name up to its NUL, going to `buf[i]` on. -/
def copyName (buf : Mem) (i : Nat) : List Byte → Nat × Mem
  | [] => (i, buf)
  | b :: name => if b = 0#8 then (i, buf) else copyName (buf.store i b) (i + 1) name

/-- `read_directory`. -/
def readDirectory (s : State) (fd : Nat) (buf : Mem) (_nbytes : Int) : Int × Mem × State :=
  let e := s.curPcb.fdEntry fd
  if e.filePosition ≥ img.dentryCount then (0, buf, s)
  else
    match readDentryByIndex img (toU32 e.filePosition) with
    | none => (-1, buf, s)
    | some current =>
      let r := copyName buf 0 current.fileName
      (r.1, r.2, s.setFd fd { e with filePosition := toI32 (e.filePosition + 1) })

end

end LimeOS
