import LimeOS.Spec.Files

/-!
# What the user programs are for

What `cat`, `ls` and `grep` return and write, by the content of the file system.
-/

namespace LimeOS

/-- The names in the directory up to the first empty one, at which its readers stop. -/
def Image.dirNames (img : Image) : List (List Byte) :=
  ((List.range img.dentryCount.toNat).map (entryName img)).takeWhile (· ≠ [])

/-- `cat` of a file writes its content, of the directory the names in it, and of the clock nothing. -/
def catResult (img : Image) (args : CString) : Int × List Byte :=
  if args.1 = [] then (3, str "could not read arguments\n")
  else
    match readDentryByName img args with
    | none => (2, str "file not found\n")
    | some d =>
      if d.fileType = 0 then (0, [])
      else if d.fileType = 1 then (0, img.dirNames.flatten)
      else if d.fileType = 2 then (0, img.content (toU32 d.inodeNumber))
      else (2, str "file not found\n")

/-- `ls` writes the names in the directory, each with a newline. -/
def lsOutput (img : Image) : List Byte := (img.dirNames.map (· ++ [0x0a#8])).flatten

/-! ## `grep` -/

/-- What `grep` writes for a text: each line with `s` in it, after the name of the file. -/
def grepText (s fname text : List Byte) : List Byte :=
  ((text.splitOn 0x0a#8).filter (s <:+: ·)).flatMap fun line => fname ++ str ":" ++ line ++ str "\n"

/-- The string up to the first NUL of a list. -/
def CString.of (l : List Byte) : CString := ⟨untilNul l, fun h => by simpa [untilNul] using List.mem_takeWhile_imp h⟩

/-- What it writes for a name: nothing for the clock. -/
def grepFileOutput (img : Image) (s name : List Byte) : List Byte :=
  match readDentryByName img (.of name) with
  | some d => if d.fileType = 2 then grepText s name (img.content (toU32 d.inodeNumber)) else []
  | none => []

/-- The names of the files that `grep` reads: those that do not begin with a dot. -/
def Image.grepNames (img : Image) : List (List Byte) := img.dirNames.filter (·.head? ≠ some 0x2e#8)

/-- A text that `grep` can read: without NUL, and with lines that its array can hold. -/
structure Lines (text : List Byte) : Prop where
  nul : 0#8 ∉ text
  length : ∀ line ∈ text.splitOn 0x0a#8, line.length ≤ 1024

/-- The file with a name is a text file, or it is the clock. -/
def IsText (img : Image) (name : List Byte) : Prop :=
  ∀ d, readDentryByName img (.of name) = some d → d.fileType = 2 → Lines (img.content (toU32 d.inodeNumber))

/-- What `grep` writes: file by file, and for a text file what it should. -/
def GrepOutput (img : Image) (s : List Byte) (output : List Byte) : Prop :=
  ∃ texts, List.Forall₂ (fun name text => IsText img name → text = grepFileOutput img s name) img.grepNames texts ∧
    output = texts.flatten

/-- A name that `grep` can open, of a regular file or of the clock. -/
structure Greppable (img : Image) (name : List Byte) : Prop where
  stdin : ¬ str "stdin" <+: name
  stdout : ¬ str "stdout" <+: name
  found : ∃ d, readDentryByName img (.of name) = some d ∧ (d.fileType = 0 ∨ d.fileType = 2)

end LimeOS
