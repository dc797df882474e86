import McSim.TraceGen

/-! The trace player of the Pthread front end. -/

namespace McSim.Pthread

/-- How `PlayTraces` ends; `running` where no fuel is left. -/
inductive PlayEnd
  | finished
  | failedToOpen
  | corrupted
  | assertion
  | undefined
  | running
  deriving DecidableEq

/-- A file that is read: what follows the position, and whether no read has failed. -/
structure Ifstream where
  rest : List Cell
  good : Bool := true

def Ifstream.read (f : Ifstream) (n : Nat) : List Cell × Ifstream :=
  if f.good then (f.rest.take n, { rest := f.rest.drop n, good := n ≤ f.rest.length }) else ([], f)

def ofWordCells (old : Nat) : List Cell → Option Nat
  | [] => some old
  | .word value i :: cells => if .word value i :: cells = wordCells value then some value else none
  | _ => none

def ofFooterCells : List Cell → Option Footer
  | .footer f i :: cells => if .footer f i :: cells = footerCells f then some f else none
  | _ => none

def ofRawCells (cells : List Cell) : Option (List UInt8) :=
  cells.mapM fun cell => match cell with
    | .raw byte => some byte
    | _ => none

structure Player where
  file : Ifstream
  sliceCount : Nat
  compressedLength : Nat := 0
  compressed : List UInt8 := []
  instrs : List PTSInstrTrace := []
  numSentInstrs : Nat

def overwrite {α : Type} (old new : List α) : List α := new ++ old.drop new.length

/-- One group: its number, its length, its data, and a `process_ins` for each instruction past the
first `skip`. -/
def playGroup (snappy : Snappy) (skip : Nat) (p : Player) :
    Except PlayEnd (Player × List PTSInstrTrace) := do
  let (cells, file) := p.file.read sizeofSizeT
  let some sliceCount := ofWordCells p.sliceCount cells | .error .undefined
  let (cells, file) := file.read sizeofSizeT
  let some compressedLength := ofWordCells p.compressedLength cells | .error .undefined
  let (cells, file) := file.read compressedLength
  let some bytes := ofRawCells cells | .error .undefined
  let compressed := overwrite p.compressed bytes
  if snappy.maxCompressedLength instrGroupSize < compressedLength ∨
      compressed.length < compressedLength then .error .undefined
  let some group := snappy.rawUncompress (compressed.take compressedLength) | .error .corrupted
  let instrs := overwrite p.instrs group
  if instrs.length ≠ instrGroupSize then .error .undefined
  return (
    { file, sliceCount, compressedLength, compressed, instrs
      numSentInstrs := p.numSentInstrs + instrGroupSize },
    instrs.drop (skip - p.numSentInstrs))

/-- The calls of `process_ins`, how the loop ends, and `num_sent_instrs` -/
def playGroups (snappy : Snappy) (skip total : Nat) :
    Nat → Player → List PTSInstrTrace × PlayEnd × Nat
  | 0, p => ([], .running, p.numSentInstrs)
  | fuel + 1, p =>
    match playGroup snappy skip p with
    | .error e => ([], e, p.numSentInstrs)
    | .ok (p, calls) =>
      if p.sliceCount < total then
        let (more, e, sent) := playGroups snappy skip total fuel p
        (calls ++ more, e, sent)
      else (calls, .finished, p.numSentInstrs)

def checkFooter (cells : List Cell) : Except PlayEnd Footer :=
  if cells.length < sizeofFooter then .error .assertion
  else
    let offset := cells.length - sizeofFooter
    match ofFooterCells (cells.drop offset) with
    | none => .error .undefined
    | some footer =>
      if footer.magicNumber = kTraceMagicNumber ∧ footer.offset = offset ∧
        0 < footer.totalSlice then
        .ok footer
      else .error .assertion

def playFile (snappy : Snappy) (file : Option (List Cell)) (skip fuel sent : Nat) :
    List PTSInstrTrace × PlayEnd × Nat :=
  match file with
  | none => ([], .failedToOpen, sent)
  | some cells =>
    match checkFooter cells with
    | .error e => ([], e, sent)
    | .ok footer => playGroups snappy skip footer.totalSlice fuel
      { file := { rest := cells }, sliceCount := footer.totalSlice, numSentInstrs := sent }

/-- `PlayTraces`; `sent` is `num_sent_instrs`. -/
def playTraces (snappy : Snappy) (file : Option (List Cell)) (skip : Nat) (repeatPlaying : Bool) :
    Nat → Nat → List PTSInstrTrace × PlayEnd
  | 0, _ => ([], .running)
  | fuel + 1, sent =>
    match playFile snappy file skip fuel sent with
    | (calls, .finished, sent) =>
      if repeatPlaying then
        let (more, e) := playTraces snappy file skip repeatPlaying fuel sent
        (calls ++ more, e)
      else (calls, .finished)
    | (calls, e, _) => (calls, e)

end McSim.Pthread
