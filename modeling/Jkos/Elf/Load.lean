import Jkos.Common
import Jkos.Fs.Ramdisk

/-!
# The ELF loader

`load_elf` of `elf.cpp`. The loader reads the file and never the memory it sets up, so the
calls it makes on pages and memory depend on the file alone: a run yields their list, in the
order in which they are made.
-/

namespace Jkos.Elf

open Exec (read modify throw)
open Fs

/-- A call that the loader makes on the current page directory or on memory. Pages are always
set up for the user, writable, and cleared if they are set up lazily. -/
inductive Call where
  /-- `alloc_interval(start, stop, true, true)` -/
  | allocInterval (start stop : Word)
  /-- `get_page(addr, true)->alloc(true, true)` -/
  | alloc (addr : Word)
  /-- `file->read((void*)dest, …)`, with the bytes that it copies. -/
  | fileRead (dest : Word) (bytes : List Byte)
  /-- `memset((void*)dest, 0, cnt)` -/
  | memset (dest cnt : Word)
  /-- `lazy_alloc_interval(start, stop, true, true, true)` -/
  | lazyAllocInterval (start stop : Word)

/-- The file, and the calls made so far. -/
structure LoadState where
  file : ByteFile
  calls : List Call

/-- A part of the loader, which may fail with an `errno`. -/
abbrev Loader := Exec LoadState Word

/-- `ENOENT` -/
def enoent : Word := 2

/-- `EIO` -/
def eio : Word := 5

/-- `ENOEXEC` -/
def enoexec : Word := 8

/-- `ENOMEM` -/
def enomem : Word := 12

/-! ## Headers -/

/-- The field of `n` bytes at an offset of an object, lowest byte first. -/
def field (bytes : List Byte) (off : Nat) : Nat → Nat
  | 0 => 0
  | n + 1 => (bytes.getD off 0).toNat + 256 * field bytes (off + 1) n

/-- `uint16_t` and `uint32_t` fields. -/
def half (bytes : List Byte) (off : Nat) : Nat := field bytes off 2

def word (bytes : List Byte) (off : Nat) : Word := BitVec.ofNat 32 (field bytes off 4)

/-- The fields of `Elf32_Ehdr` that the loader reads. -/
structure Ehdr where
  ident : List Byte
  type : Nat
  machine : Nat
  version : Word
  entry : Word
  phoff : Word
  phentsize : Nat
  phnum : Nat

/-- `sizeof(Elf32_Ehdr)` -/
def sizeofEhdr : Word := 52

def Ehdr.ofBytes (bytes : List Byte) : Ehdr where
  ident := bytes.take 16
  type := half bytes 16
  machine := half bytes 18
  version := word bytes 20
  entry := word bytes 24
  phoff := word bytes 28
  phentsize := half bytes 42
  phnum := half bytes 44

/-- The fields of `Elf32_Phdr` that the loader reads. -/
structure Phdr where
  type : Word
  offset : Word
  vaddr : Word
  filesz : Word
  memsz : Word

/-- `sizeof(Elf32_Phdr)` -/
def sizeofPhdr : Word := 32

def Phdr.ofBytes (bytes : List Byte) : Phdr where
  type := word bytes 0
  offset := word bytes 4
  vaddr := word bytes 8
  filesz := word bytes 16
  memsz := word bytes 20

/-- `PT_LOAD` -/
def ptLoad : Word := 1

/-- `is_header_valid`: the bytes of `e_ident` are the magic number, `ELFCLASS32`,
`ELFDATA2LSB` and `EV_CURRENT`; the type is `ET_EXEC` and the machine `EM_386`. -/
def isHeaderValid (header : Ehdr) : Bool :=
  header.ident.take 7 = [0x7F, 0x45, 0x4C, 0x46, 1, 1, 1] && header.type = 2 &&
    header.machine = 3 && header.version = 1 && header.entry != 0 && header.phoff != 0 &&
    header.phnum != 0 && header.phentsize = sizeofPhdr.toNat

/-! ## The loader -/

def call (c : Call) : Loader Unit := modify fun s => { s with calls := s.calls ++ [c] }

/-- `file->seek(offset, Fs::SEEK_SET)` -/
def seek (offset : Word) : Loader Int := fun s =>
  let (reply, file) := s.file.seek offset.toNat seekSet
  (.ok reply.value, { s with file := file })

/-- `file->read`: the `ssize_t` it returns, and the bytes. -/
def readFile (cnt : Word) : Loader (Word × List Byte) := fun s =>
  let (reply, file) := s.file.read cnt.toNat
  (.ok (BitVec.ofInt 32 reply.value, reply.data), { s with file := file })

/-- The part of a segment that is in the file. The result is `space_start`. -/
def loadData (header : Phdr) : Loader Word := do
  if header.filesz = 0 then pure header.vaddr
  else
    let filesz := Word.min header.filesz header.memsz
    if (← seek header.offset) = -1 then throw eio
    else
      call (.allocInterval (pageOf header.vaddr) (getAligned (header.vaddr + header.memsz) 12))
      let (n, bytes) ← readFile filesz
      call (.fileRead header.vaddr bytes)
      if n ≠ filesz then throw eio
      else pure (header.vaddr + filesz)

/-- The first page of the part that is not in the file, unless the part begins with it. -/
def zeroHead (spaceStart : Word) : Loader Unit := do
  let startAlg := getAligned spaceStart 12
  if spaceStart ≠ startAlg then
    call (.alloc spaceStart)
    call (.memset spaceStart (startAlg - spaceStart))
  else pure ()

/-- The last page, unless the part ends with it. -/
def zeroTail (spaceEnd : Word) : Loader Unit := do
  let endAlg := pageOf spaceEnd
  if endAlg ≠ spaceEnd then
    call (.alloc endAlg)
    call (.memset endAlg (spaceEnd - endAlg))
  else pure ()

/-- The part of a segment that is not in the file. -/
def loadZeros (spaceStart spaceEnd : Word) : Loader Unit := do
  if spaceStart < spaceEnd then
    zeroHead spaceStart
    zeroTail spaceEnd
    call (.lazyAllocInterval (getAligned spaceStart 12) (pageOf spaceEnd))
  else pure ()

/-- The body of the loop for a segment that is loaded. The user memory ranges from `low` to
`high`, which are `USER_MEM_LOW` and `USER_MEM_HIGH`. -/
def loadSegment (low high : Word) (header : Phdr) : Loader Unit := do
  if header.vaddr < low ∨ header.vaddr.toNat + header.memsz.toNat > high.toNat then throw enomem
  else
    let spaceStart ← loadData header
    loadZeros spaceStart (header.vaddr + header.memsz)

/-- The loop over the program headers from number `i` on, with `n` of them to go. The result
is `load_done`. -/
def loadLoop (low high phoff : Word) : Nat → Word → Bool → Loader Bool
  | 0, _, done => pure done
  | n + 1, i, done => do
      if (← seek (i * sizeofPhdr + phoff)) = -1 then throw eio
      else
        let (cnt, bytes) ← readFile sizeofPhdr
        if cnt ≠ sizeofPhdr then throw eio
        else
          let header := Phdr.ofBytes bytes
          if header.type ≠ ptLoad ∨ header.memsz = 0 then loadLoop low high phoff n (i + 1) done
          else
            loadSegment low high header
            loadLoop low high phoff n (i + 1) true

/-- `load_elf` of an open file. The result is the entry point. -/
def loadFile (low high : Word) : Loader Word := do
  let (cnt, bytes) ← readFile sizeofEhdr
  if cnt ≠ sizeofEhdr then throw eio
  else
    let header := Ehdr.ofBytes bytes
    if isHeaderValid header = false then throw enoexec
    else
      let done ← loadLoop low high header.phoff header.phnum 0 false
      if done then pure header.entry else throw enoexec

/-- `load_elf`: the entry point or the `errno`, and the calls that were made. -/
def loadElf (low high : Word) (file : Option ByteFile) : Except Word Word × List Call :=
  match file with
  | none => (.error enoent, [])
  | some file =>
      let (result, s) := loadFile low high ⟨file, []⟩
      (result, s.calls)

/-! ## A file with one segment -/

/-- The bytes of a header field of `n` bytes, lowest first. -/
def littleEndian : Nat → Nat → List Byte
  | 0, _ => []
  | n + 1, v => BitVec.ofNat 8 v :: littleEndian n (v / 256)

/-- The headers of a file that has one segment, which begins at `vaddr`. Its entry point is
there, too. -/
def segmentHeaders (vaddr filesz memsz : Nat) : List Byte :=
  [0x7F, 0x45, 0x4C, 0x46, 1, 1, 1] ++ List.replicate 9 0 ++ littleEndian 2 2 ++
    littleEndian 2 3 ++ littleEndian 4 1 ++ littleEndian 4 vaddr ++ littleEndian 4 52 ++
    List.replicate 8 0 ++ littleEndian 2 52 ++ littleEndian 2 32 ++ littleEndian 2 1 ++
    List.replicate 6 0 ++
    littleEndian 4 1 ++ littleEndian 4 84 ++ littleEndian 4 vaddr ++ littleEndian 4 vaddr ++
    littleEndian 4 filesz ++ littleEndian 4 memsz ++ littleEndian 4 7 ++ littleEndian 4 4096

/-- A file with one segment, whose data follow the headers. -/
def segmentFile (vaddr memsz : Nat) (data : List Byte) : ByteFile where
  contents := segmentHeaders vaddr data.length memsz ++ data
  cursor := 0
  closed := false
  cursor_le := Nat.zero_le _

end Jkos.Elf
