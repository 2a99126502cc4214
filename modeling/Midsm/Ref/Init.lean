import Midsm.Ref.Types

/-!
# `init.c`

The host file and its parser. A pointer into a C string is the list of the bytes
from there to the end, the terminating NUL included, and reading behind that NUL is
`none`. A character array is a function of the index. `getline` hands over one line
after the other; a host file that cannot be opened ends the program.
-/

namespace Midsm

abbrev wordSize : Nat := 80

abbrev chNul : Byte := 0
abbrev chTab : Byte := 9
abbrev chNewline : Byte := 10
abbrev chSpace : Byte := 32

/-! ## Segments -/

/-- `while(((ch = *tail) == ' ' || ch == '\t') && ch != '\0' && ch != '\n') tail++;`
with `ch` and `tail` afterwards. -/
def skipBlanks : List Byte → Option (Byte × List Byte)
  | [] => none
  | ch :: rest =>
      if (ch = chSpace ∨ ch = chTab) ∧ ch ≠ chNul ∧ ch ≠ chNewline then skipBlanks rest
      else some (ch, ch :: rest)

/-- The loop over one segment, with `ch`, `tail` and `len` afterwards. -/
def scanSegment (contentsize : Int) : List Byte → Nat → Option (Byte × List Byte × Nat)
  | [], _ => none
  | ch :: rest, len =>
      if ch ≠ chSpace ∧ ch ≠ chTab ∧ ch ≠ chNul ∧ ch ≠ chNewline ∧
          (len : Int) < contentsize - 1 then
        scanSegment contentsize rest (len + 1)
      else some (ch, ch :: rest, len)

/-- What `while(index >= 0)` leaves in `ch`, `index`, `head` and `len`, `index + 1` rounds
being left; the inner `none` is the `return -1` in its body. -/
def segmentLoop (contentsize : Int) :
    Nat → Byte → List Byte → List Byte → Nat → Option (Option (Byte × Int × List Byte × Nat))
  | 0, ch, head, _, len => some (some (ch, -1, head, len))
  | index + 1, _, _, tail, _ =>
      match scanSegment contentsize tail 0 with
      | none => none
      | some (ch, next, len) =>
          if ch ≠ chSpace ∧ ch ≠ chTab ∧ ch ≠ chNul ∧ ch ≠ chNewline ∧
              (len : Int) = contentsize - 1 then
            some none
          else
            match skipBlanks next with
            | none => none
            | some (ch, next) =>
                if ch = chNul ∨ ch = chNewline then
                  some (some (ch, (index : Int) - 1, tail, len))
                else segmentLoop contentsize index ch tail next len

/-- `strncpy(dest, src, n)`. -/
def strncpy (dest : Nat → Byte) (src : List Byte) (n : Nat) : Nat → Byte :=
  fun i => if i < n then ((src.takeWhile (· ≠ chNul))[i]?).getD chNul else dest i

/-- The result and `content` afterwards; `none` for a `str` or a `content` is `NULL`. -/
def readSegFromStr (str : Option (List Byte)) (index : Int) (content : Option (Nat → Byte))
    (contentsize : Int) : Option (Int × Option (Nat → Byte)) :=
  match str, content with
  | some str, some content =>
      if index < 0 ∨ contentsize ≤ 0 then some (-1, some content)
      else
        match skipBlanks str with
        | none => none
        | some (ch, tail) =>
            match segmentLoop contentsize (index.toNat + 1) ch str tail 0 with
            | none => none
            | some none => some (-1, some content)
            | some (some (ch, index, head, len)) =>
                if (ch = chNul ∨ ch = chNewline) ∧ index > 0 then some (-1, some content)
                else some (0, some (upd (strncpy content head len) len chNul))
  | _, content => some (-1, content)

def readAddrFromStr (str : Option (List Byte)) (addr : Option (Nat → Byte))
    (addrsize : Int) : Option (Int × Option (Nat → Byte)) :=
  readSegFromStr str 0 addr addrsize

def readNameFromStr (str : Option (List Byte)) (username : Option (Nat → Byte))
    (usernamesize : Int) : Option (Int × Option (Nat → Byte)) :=
  readSegFromStr str 1 username usernamesize

/-! ## The host table -/

/-- `host_t`. -/
structure HostEntry where
  address : Nat → Byte
  username : Nat → Byte

/-- `hosts` and `hostnum`. Of `hosts` only the first `MAX_HOST_NUM` cells are the
array. -/
structure HostTable where
  hosts : Nat → HostEntry
  hostnum : Int

/-- The globals before `readHosts`. -/
def noHosts : HostTable := ⟨fun _ => ⟨fun _ => 0, fun _ => 0⟩, 0⟩

def HostTable.setHost (i : Nat) (entry : HostEntry) (t : HostTable) : HostTable :=
  { t with hosts := upd t.hosts i entry }

/-- The loop over the lines of the file; `hosti` is where the next one goes. -/
def readHostsLoop : List (List Byte) → Nat → HostTable → Option HostTable
  | [], _, t => some t
  | line :: lines, hosti, t =>
      match readAddrFromStr (some (line ++ [chNul])) (some (t.hosts hosti).address) wordSize with
      | some (_, some address) =>
          let t := t.setHost hosti { t.hosts hosti with address := address }
          match readNameFromStr (some (line ++ [chNul])) (some (t.hosts hosti).username)
              wordSize with
          | some (_, some username) =>
              let t := t.setHost hosti { t.hosts hosti with username := username }
              readHostsLoop lines (hosti + 1) { t with hostnum := t.hostnum + 1 }
          | _ => none
      | _ => none

def readHosts (lines : List (List Byte)) (t : HostTable) : Option HostTable :=
  readHostsLoop lines 0 t

end Midsm
