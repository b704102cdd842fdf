import LimeOS.Impl.Filesystem

/-!
# Images of the file system

An image is the boot block, the inodes and the data blocks, 4 KB each. The
content of a file is the bytes of its blocks in order, up to its length, at
their places in the image: the addresses are not taken modulo anything, which
an image that fits the address space does not need.
-/

namespace LimeOS

/-- The bytes before the first NUL. -/
def untilNul (name : List Byte) : List Byte := name.takeWhile (· ≠ 0#8)

/-- The name in an entry of the directory: all of its field if that has no NUL. -/
def entryName (img : Image) (j : Nat) : List Byte := untilNul (dentryAt img j).fileName

namespace Image

variable (img : Image)

/-- Entry `j` of the directory has a file's name, of which 32 bytes count. -/
def Named (fname : CString) (j : Nat) : Prop := j < img.dentryCount.toNat ∧ entryName img j = fname.1.take 32

/-- Entry `j` of the directory is a regular file. -/
def IsFile (j : Nat) : Prop := j < img.dentryCount.toNat ∧ (dentryAt img j).fileType = 2

/-- The inode of entry `j`. -/
def inodeOf (j : Nat) : Nat := toU32 (dentryAt img j).inodeNumber

/-- Regular files have inodes, and lengths that their 1023 block numbers cover. -/
structure Sound : Prop where
  inode : ∀ j, img.IsFile j → img.inodeOf j < img.inodeCount
  length : ∀ j, img.IsFile j → inodeLength img (img.inodeOf j) ≤ 1023 * 4096

/-- An inode of an image with `blocks` data blocks that fits the address space: its length is
one its block numbers cover, and the blocks of its file are among them. -/
structure HasFile (blocks inode : Nat) : Prop where
  size : 4096 * (1 + img.inodeCount + blocks) ≤ 2 ^ 32
  inode_lt : inode < img.inodeCount
  length : inodeLength img inode ≤ 1023 * 4096
  block : ∀ k, 4096 * k < inodeLength img inode → dataBlockNumber img inode k < blocks

/-- The image has `blocks` data blocks, fits the address space, and the blocks of its files are among them. -/
structure WellFormed (blocks : Nat) : Prop extends img.Sound where
  size : 4096 * (1 + img.inodeCount + blocks) ≤ 2 ^ 32
  block : ∀ j, img.IsFile j → ∀ k, 4096 * k < inodeLength img (img.inodeOf j) →
    dataBlockNumber img (img.inodeOf j) k < blocks

theorem WellFormed.hasFile {img : Image} {blocks j : Nat} (h : img.WellFormed blocks) (hj : img.IsFile j) :
    img.HasFile blocks (img.inodeOf j) :=
  ⟨h.size, h.inode j hj, h.length j hj, h.block j hj⟩

/-- The number of data blocks: the third word of the boot block. -/
def blockCount : Nat := img.word 8

/-- The little-endian word at a place in the image. -/
def le32 (a : Nat) : Nat :=
  (img a).toNat + 2 ^ 8 * (img (a + 1)).toNat + 2 ^ 16 * (img (a + 2)).toNat + 2 ^ 24 * (img (a + 3)).toNat

/-- The place of byte `o` of the file with an inode. -/
def place (inode o : Nat) : Nat :=
  4096 * (1 + img.le32 4 + img.le32 (4096 * (1 + inode) + 4 + 4 * (o / 4096))) + o % 4096

/-- The content of the file with an inode. -/
def content (inode : Nat) : List Byte :=
  (List.range (img.le32 (4096 * (1 + inode)))).map fun o => img (img.place inode o)

end Image

end LimeOS
