import Mathlib.Data.Finset.Sort
import Mathlib.Logic.Function.Basic

/-! The trace generator.
Instructions are compressed in groups that start at multiples of `instr_group_size`, counted over
the whole program, while a slice has a file of its own and starts at a multiple of `slice_size`. -/

namespace McSim

/-- `PTSInstrTrace`, the same in the generator and in the player -/
structure PTSInstrTrace where
  waddr : UInt64 := 0
  wlen : UInt32 := 0
  raddr : UInt64 := 0
  raddr2 : UInt64 := 0
  rlen : UInt32 := 0
  ip : UInt64 := 0
  category : UInt32 := 0
  isbranch : Bool := false
  isbranchtaken : Bool := false
  rr0 : UInt32 := 0
  rr1 : UInt32 := 0
  rr2 : UInt32 := 0
  rr3 : UInt32 := 0
  rw0 : UInt32 := 0
  rw1 : UInt32 := 0
  rw2 : UInt32 := 0
  rw3 : UInt32 := 0
  deriving DecidableEq

def instrGroupSize : Nat := 100000

theorem instrGroupSize_pos : 0 < instrGroupSize := by decide

def kTraceMagicNumber : UInt64 := 0x1628efca19620db1

structure Footer where
  offset : Nat
  totalSlice : Nat
  instrGroupSize : Nat
  magicNumber : UInt64 := 0
  deriving DecidableEq

def sizeofSizeT : Nat := 8

def sizeofFooter : Nat := 32

/-- A byte of a trace file: a byte of a `size_t`, of a footer, or of compressed data. -/
inductive Cell
  | word (value i : Nat)
  | footer (f : Footer) (i : Nat)
  | raw (byte : UInt8)
  deriving DecidableEq

def wordCells (value : Nat) : List Cell := (List.range sizeofSizeT).map (.word value)

def footerCells (f : Footer) : List Cell := (List.range sizeofFooter).map (.footer f)

def rawCells (bytes : List UInt8) : List Cell := bytes.map .raw

/-- What is used of the compression library: `RawCompress` fits the buffer that is made for it, and
`RawUncompress` inverts it. Lengths before compression are in instructions. -/
structure Snappy where
  maxCompressedLength : Nat → Nat
  rawCompress : List PTSInstrTrace → List UInt8
  rawUncompress : List UInt8 → Option (List PTSInstrTrace)
  length_rawCompress : ∀ xs, (rawCompress xs).length ≤ maxCompressedLength xs.length
  rawUncompress_rawCompress : ∀ xs, rawUncompress (rawCompress xs) = some xs

structure TraceConfig where
  snappy : Snappy
  sliceSize : Nat
  sliceSize_pos : 0 < sliceSize

/-- The generator. `sliceIndex` is what `slice_index_iter` has yet to pass, `currFile` the slice
whose file is open. -/
structure TraceGen where
  numInstrs : Nat := 0
  currIndex : Nat := 0
  sliceIndex : List Nat
  tracing : Bool := false
  instrs : Nat → PTSInstrTrace := fun _ => {}
  currFile : Option Nat := none
  files : Nat → Option (List Cell) := fun _ => none
  sliceCount : Nat := 0
  offset : Nat := 0

namespace TraceGen

/-- `exit(1)` after the last slice leaves the files; reading past the last slice index has no
meaning. -/
inductive Halt
  | exit (files : Nat → Option (List Cell))
  | undefined

def init (slices : Finset Nat) : TraceGen := { sliceIndex := slices.sort }

def write (s : TraceGen) (cells : List Cell) : TraceGen :=
  match s.currFile with
  | none => s
  | some k => { s with files := Function.update s.files k ((s.files k).map (· ++ cells)) }

/-- At a multiple of `slice_size` the next slice begins, with a file if it was asked for. -/
def startSlice (cfg : TraceConfig) (s : TraceGen) : Except Halt TraceGen :=
  if s.numInstrs % cfg.sliceSize = 0 then
    match s.sliceIndex with
    | [] => .error .undefined
    | k :: rest =>
      if s.currIndex = k then return { s with
        tracing := true, sliceIndex := rest, currFile := some k
        files := Function.update s.files k (some []), currIndex := s.currIndex + 1 }
      else return { s with currIndex := s.currIndex + 1 }
  else return s

def flushGroup (cfg : TraceConfig) (s : TraceGen) : TraceGen :=
  let data := cfg.snappy.rawCompress ((List.range instrGroupSize).map s.instrs)
  let s := { s with sliceCount := s.sliceCount + 1 }
  let s := ((s.write (wordCells s.sliceCount)).write (wordCells data.length)).write (rawCells data)
  { s with offset := s.offset + 2 * sizeofSizeT + data.length }

def closeSlice (s : TraceGen) : Except Halt TraceGen :=
  let s := s.write (footerCells
    { offset := s.offset, totalSlice := s.sliceCount, instrGroupSize, magicNumber := kTraceMagicNumber })
  if s.sliceIndex = [] then .error (.exit s.files)
  else return { s with tracing := false, currFile := none, sliceCount := 0, offset := 0 }

def store (cfg : TraceConfig) (s : TraceGen) (x : PTSInstrTrace) : TraceGen :=
  let s := { s with
    instrs := Function.update s.instrs (s.numInstrs % instrGroupSize) x, numInstrs :=
      s.numInstrs + 1 }
  if s.numInstrs % instrGroupSize = 0 then s.flushGroup cfg else s

def record (cfg : TraceConfig) (s : TraceGen) (x : PTSInstrTrace) : Except Halt TraceGen :=
  let s := s.store cfg x
  if s.numInstrs % cfg.sliceSize = 0 then s.closeSlice else return s

def processMemIns (cfg : TraceConfig) (s : TraceGen) (x : PTSInstrTrace) :
    Except Halt TraceGen := do
  let s ← s.startSlice cfg
  if s.tracing then s.record cfg x else return { s with numInstrs := s.numInstrs + 1 }

def run (cfg : TraceConfig) (s : TraceGen) (stream : List PTSInstrTrace) : Except Halt TraceGen :=
  stream.foldlM (processMemIns cfg) s

end TraceGen
end McSim
