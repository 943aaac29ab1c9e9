import ShannonNet.Generator.Random
import ShannonNet.Library.Buffer
import Mathlib.Data.List.ProdSigma

namespace ShannonNet.Generator

open Library.Bitset Library.Buffer

/-- The files under `running/saveIdx/`: the `tmp` keys of each secret file and thread, the part of
each thread, and the running key. -/
structure RunDir where
  tmp : ℕ → ℕ → Option Bytes
  part : ℕ → Option Bytes
  bin : Option Bytes

def RunDir.setTmp (d : RunDir) (fileIdx threadIdx : ℕ) (v : Option Bytes) : RunDir :=
  { d with tmp := fun f t ↦ if f = fileIdx ∧ t = threadIdx then v else d.tmp f t }

def RunDir.setPart (d : RunDir) (threadIdx : ℕ) (v : Option Bytes) : RunDir :=
  { d with part := fun t ↦ if t = threadIdx then v else d.part t }

/-- Which of the file opens of one generator iteration succeed. -/
structure Opens where
  secretIn : ℕ → ℕ → Bool
  tmpOut : ℕ → ℕ → Bool
  binIn : ℕ → ℕ → Bool
  binOut : ℕ → Bool
  mergeIn : ℕ → Bool
  saveOut : Bool

def Opens.all : Opens :=
  ⟨fun _ _ ↦ true, fun _ _ ↦ true, fun _ _ ↦ true, fun _ ↦ true, fun _ ↦ true, true⟩

variable (cfg : Config)

def bufferSize : ℕ :=
  if cfg.threadNum > 1 then cfg.secretASize / cfg.threadNum else cfg.secretASize

def readChars : ℕ := cfg.readLen / 8

def availRead : ℕ := bufferSize cfg - readChars cfg

/-- The window of bytes folded to one byte, that byte printed, and the characters folded to one. -/
def windowDigit (str : Bytes) : List Char :=
  let bitFirst8 := str.foldl (fun acc c ↦ acc ^^^ c) 0
  let bitFirst1 := (digits bitFirst8).foldl (fun acc cc ↦ acc ^^ cc.toNat.testBit 0) false
  [digit bitFirst1]

/-- The variables of the innermost loop of `processTmpSecret`; `num` is a `uint16_t`. -/
structure TmpLoop where
  num : ℕ
  charSS : List Char
  ss : Bytes

def TmpLoop.step (l : TmpLoop) (str : List Char) : TmpLoop :=
  let charSS := l.charSS ++ str
  let num := (l.num + 1) % 2 ^ 16
  if num % 8 = 0 then ⟨num, [], l.ss ++ [ofString charSS]⟩ else ⟨num, charSS, l.ss⟩

def windowOffset (random i : ℕ) : ℕ := (random * i) % availRead cfg

def processRandom (bufVec ss : Bytes) (random : ℕ) : Bytes :=
  ((List.range cfg.readNum).foldl
    (fun (l : TmpLoop) i ↦
      l.step (windowDigit (readAt bufVec (windowOffset cfg random i) (readChars cfg))))
    ⟨0, [], ss⟩).ss

def tmpSecret (file : Bytes) (threadIdx : ℕ) (vec : List ℕ) : Bytes :=
  let bufVec := load (bufferSize cfg) file (bufferSize cfg * threadIdx)
  vec.foldl (processRandom cfg bufVec) []

/-- `secret` is the content behind `path`, `none` when no file is there. -/
def processTmpSecret (opens : Opens) (secret : Option Bytes) (fileIdx threadIdx : ℕ)
    (vec : List ℕ) (d : RunDir) : RunDir :=
  match if opens.secretIn fileIdx threadIdx then secret else none with
  | none => d
  | some file =>
    if opens.tmpOut fileIdx threadIdx then
      d.setTmp fileIdx threadIdx (some (tmpSecret cfg file threadIdx vec))
    else d

def xorColumn (bufferVec : List Bytes) (fileNum i : ℕ) : Option UInt8 :=
  (List.range fileNum).foldlM
    (fun acc j ↦ bufferVec[j]?.bind fun buf ↦ buf[i]?.map fun c ↦ acc ^^^ c) 0

/-- `none` is an access of `bufferVec` out of range. -/
def processBinSecret (opens : Opens) (threadIdx fileNum : ℕ) (d : RunDir) : Option RunDir :=
  let opened (i : ℕ) := if opens.binIn i threadIdx then d.tmp i threadIdx else none
  let bufferVec := (List.range fileNum).filterMap opened
  let d' := (List.range fileNum).foldl
    (fun d i ↦ if (opened i).isSome then d.setTmp i threadIdx none else d) d
  bufferVec[0]?.bind fun first ↦
    ((List.range first.length).mapM (xorColumn bufferVec fileNum)).map fun ss ↦
      if opens.binOut threadIdx then d'.setPart threadIdx (some ss) else d'

def partSize : ℕ := cfg.secretFileSize / cfg.threadNum

/-- One turn of the merge loop; `none` is a read past the end of `bufferVec`. -/
def mergePart (opens : Opens) (s : Bytes × RunDir) (i : ℕ) : Option (Bytes × RunDir) :=
  match if opens.mergeIn i then s.2.part i else none with
  | none => some s
  | some file =>
    if i * partSize cfg + file.length ≤ s.1.length then
      some (overlay s.1 (i * partSize cfg) file, s.2.setPart i none)
    else none

/-- The part of `generateSecretFileScript` between the choice of the files and the publication.
The tasks of one stage touch different files, so their order in the pool does not matter. The
second component tells whether the iteration goes on to the publication. -/
def generateKey (opens : Opens) (secrets : List (Option Bytes)) (randomVec : List (List ℕ))
    (d : RunDir) : Option (RunDir × Bool) :=
  let fileNum := secrets.length
  let d := (List.range fileNum ×ˢ List.range cfg.threadNum).foldl
    (fun d p ↦ processTmpSecret cfg opens (secrets.getD p.1 none) p.1 p.2
      (randomVec.getD (p.1 * cfg.threadNum + p.2) []) d) d
  ((List.range cfg.threadNum).foldlM
      (fun d threadIdx ↦ processBinSecret opens threadIdx fileNum d) d).bind fun d ↦
    ((List.range cfg.threadNum).foldlM (mergePart cfg opens)
        (zeros cfg.secretFileSize, d)).map fun s ↦
      if opens.saveOut then ({ s.2 with bin := some s.1 }, true) else (s.2, false)

end ShannonNet.Generator
