import LimeOS.Impl.Lib

/-!
# `terminal.c` and `rtc.c`

`terminal_read` waits for the keyboard between its two resets and its copying
loop. A read is taken when it is done: `line` is what `command_buf` of its
terminal holds when the wait ends, and the copying loop runs from that.
-/

namespace LimeOS

/-- `set_t_enter_flag`. -/
def setTEnterFlag (s : State) : State :=
  { s with tEnterFlag := Function.update s.tEnterFlag s.terminalNum true }

/-- `terminal_read` up to its wait: the flag and the first byte are reset. -/
def terminalReadBegin (s : State) (t : Nat) : State :=
  { s with
    tEnterFlag := Function.update s.tEnterFlag t false
    commandBuf := Function.update s.commandBuf t ((s.commandBuf t).store 0 0#8) }

/-- What the keyboard has done to the reader's terminal when the wait ends. -/
def lineCommitted (s : State) (t : Nat) (line : Nat → Byte) : State :=
  { s with
    tEnterFlag := Function.update s.tEnterFlag t true
    commandBuf := Function.update s.commandBuf t ⟨line, (s.commandBuf t).stored⟩ }

/-- `terminal_read`'s copying loop at index `i`, which has no bound of its own:
`none` where it leaves the array, after `n` more bytes. -/
def copyLine (line : Nat → Byte) : Nat → Nat → Mem → Option (Nat × Mem)
  | 0, _, _ => none
  | n + 1, i, buf =>
    let buf := buf.store i (line i)
    if line i = 0x0a#8 then some (i + 1, buf) else copyLine line n (i + 1) buf

/-- `terminal_read`. -/
def terminalRead (s : State) (buf : Option Mem) (line : Nat → Byte) : Except Fault (Int × Option Mem × State) :=
  match buf with
  | none => .ok (-1, none, s)
  | some buf =>
    let t := getTty s
    let s := lineCommitted (terminalReadBegin s t) t line
    match copyLine line CHARACTER_BUFFER_SIZE 0 buf with
    | none => .error .overrun
    | some (i, buf) => .ok (i, some buf, s)

/-- The body of `terminal_write`'s loop. -/
def terminalWriteByte (s : State) (c : Byte) : State :=
  let s := if checkOutOfBound s = SCROLL_ENTER_PRESSED ∧ c = 0x0a#8 then scrollScreen s else s
  let s := if checkOutOfBound s = SCROLL_LAST_LETTER then scrollScreen s else s
  putc s c

/-- `terminal_write`, of a buffer that is not `NULL`. -/
def terminalWrite (s : State) (buf : Nat → Byte) (nbytes : Int) : Int × State :=
  (nbytes.toNat, ((List.range nbytes.toNat).map buf).foldl terminalWriteByte s)

/-- Where `terminal_write` is when byte `i` of its buffer faults: it has been through the bytes before it, and
may have scrolled for this one. -/
def terminalWriteFault (s : State) (buf : Nat → Byte) (i : Nat) : State :=
  let s := ((List.range i).map buf).foldl terminalWriteByte s
  -- on the last row the first test reads the byte, and nothing has scrolled
  if checkOutOfBound s = SCROLL_LAST_LETTER then scrollScreen s else s

/-- `terminal_switch`. -/
def terminalSwitch (s : State) (newTty : Nat) : State :=
  let t := s.terminalNum
  let m := memcpy s.mem (backupMemAddr t) VIDEO_MEMORY FOUR_KB
  let m := memcpy m VIDEO_MEMORY (backupMemAddr newTty) FOUR_KB
  let s := { s with
    mem := m
    videoMem := Function.update (Function.update s.videoMem t (backupMemAddr t)) newTty VIDEO_MEMORY
    pt1 := Function.update (Function.update s.pt1 t (vidMemBackup t)) newTty USER_VID_MEM_ENTRY
    terminalNum := newTty }
  let s := updateCursor s (s.screenX s.terminalNum) (s.screenY s.terminalNum)
  { s with
    mem := (List.range 2000).foldl (fun m i =>
      m.store (s.videoMem s.terminalNum + (2 * i + 1)) (screenColor s.terminalNum)) s.mem }

/-! ## The real-time clock -/

abbrev MAX_FREQ : Nat := 1024
abbrev FREQ_FOR_RATE_CALC : Nat := 32768
abbrev RTC_DEFAULT_FREQ : Nat := 2
abbrev NBYTE_DEFAULT_VAL : Int := 4

/-- The search of `changeFreq_RTC` from a rate on; the test after the increment
ends it at 15. -/
def searchRate (freq : Nat) : Nat → Nat → Option Nat
  | 0, _ => none
  | n + 1, rate =>
    if FREQ_FOR_RATE_CALC >>> (rate - 1) = freq then some rate
    else if rate + 1 > 15 then none else searchRate freq n (rate + 1)

/-- `changeFreq_RTC`. -/
def changeFreqRTC (s : State) (freq : Nat) : State :=
  if freq > MAX_FREQ then s
  else
    match searchRate freq 15 1 with
    | none => s
    | some rate => { s with rtcRegA := (s.rtcRegA &&& 0xF0) ||| BitVec.ofNat 8 rate }

/-- `open_RTC`. -/
def openRTC (s : State) : Int × State := (0, changeFreqRTC s RTC_DEFAULT_FREQ)

/-- `RTC_handler`. -/
def rtcHandler (s : State) : State := { s with rtcInterruptOccured := fun _ => false }

/-- `read_RTC`, when the interrupt it waits for has come. -/
def readRTC (s : State) : Int × State :=
  (0, rtcHandler { s with rtcInterruptOccured := Function.update s.rtcInterruptOccured (getTty s) true })

/-- `write_RTC`, of a buffer that is not `NULL`. -/
def writeRTC (s : State) (buf : Nat → Byte) (nbytes : Int) : Int × State :=
  if nbytes ≠ NBYTE_DEFAULT_VAL then (-1, s)
  else
    let frequency := (buf 0).toNat + 2 ^ 8 * (buf 1).toNat + 2 ^ 16 * (buf 2).toNat + 2 ^ 24 * (buf 3).toNat
    (nbytes, changeFreqRTC s frequency)

end LimeOS
