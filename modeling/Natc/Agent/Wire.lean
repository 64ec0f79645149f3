import Mathlib.Algebra.Group.Nat.Defs
import Mathlib.Algebra.Ring.Int.Defs
import Mathlib.Data.List.Basic

/-!
# Messages of the target agent

Host and target exchange C structs as they lie in memory: integers of four bytes in network order
and character arrays of fixed length.
-/

namespace Natc.Agent

abbrev Bytes := List UInt8

def MAX_BUF_SIZE : Nat := 1024 * 10

def BUF_SIZE : Nat := 65536

/-- The kinds of requests and replies, in the order of the enumeration. -/
inductive Opt where
  | QUIT | SERVER | PUT | GET | MKDIR | RMDIR | EXECUTE | HELP | DELETEFILE | COPY | TERMINATE
  | SUCCESS | FAILURE | MESSAGE | NOTHING
  deriving DecidableEq, Repr

/-- `sizeof( strHeader )`, and so on for the other structs. -/
def sizeofHeader : Int := 8

def sizeofPathName : Int := 1024

def sizeofCopyFile : Int := 2048

def sizeofMessage : Int := 1024

def sizeofFileInfo : Int := 1028

namespace Opt

def all : List Opt :=
  [QUIT, SERVER, PUT, GET, MKDIR, RMDIR, EXECUTE, HELP, DELETEFILE, COPY, TERMINATE, SUCCESS,
    FAILURE, MESSAGE, NOTHING]

/-- The value of an enumerator. -/
def code (o : Opt) : Int := all.idxOf o

/-- The enumerator of a value. -/
def ofCode? (n : Int) : Option Opt := if 0 ≤ n then all[n.toNat]? else none

@[simp] theorem ofCode?_code (o : Opt) : ofCode? o.code = some o := by
  cases o <;> rfl

@[simp] theorem code_inj (o o' : Opt) : o.code = o'.code ↔ o = o' := by
  refine ⟨fun h => ?_, congrArg code⟩
  have := congrArg ofCode? h
  simpa using this

end Opt

/-- Conversion to a 32-bit `int`. -/
def toInt32 (n : Int) : Int := n.bmod (2 ^ 32)

theorem toInt32_of_range (n : Int) (hlow : -2 ^ 31 ≤ n) (hhigh : n < 2 ^ 31) :
    toInt32 n = n :=
  Int.bmod_eq_of_le (by omega) (by omega)

@[simp] theorem toInt32_toInt32 (n : Int) : toInt32 (toInt32 n) = toInt32 n := Int.bmod_bmod

@[simp] theorem toInt32_code (o : Opt) : toInt32 o.code = o.code := by
  cases o <;> rfl

/-- An integer in network order. -/
def htonl (n : Int) : Bytes :=
  let m := (n % 2 ^ 32).toNat
  [UInt8.ofNat (m / 2 ^ 24), UInt8.ofNat (m / 2 ^ 16), UInt8.ofNat (m / 2 ^ 8), UInt8.ofNat m]

def ntohl : Bytes → Int
  | [a, b, c, d] =>
      toInt32 (a.toNat * 2 ^ 24 + b.toNat * 2 ^ 16 + c.toNat * 2 ^ 8 + d.toNat : Nat)
  | _ => 0

@[simp] theorem length_htonl (n : Int) : (htonl n).length = 4 := rfl

@[simp] theorem ntohl_htonl (n : Int) : ntohl (htonl n) = toInt32 n := by
  have hbytes : ((n % 2 ^ 32).toNat / 2 ^ 24 % 2 ^ 8 * 2 ^ 24 +
      (n % 2 ^ 32).toNat / 2 ^ 16 % 2 ^ 8 * 2 ^ 16 + (n % 2 ^ 32).toNat / 2 ^ 8 % 2 ^ 8 * 2 ^ 8 +
      (n % 2 ^ 32).toNat % 2 ^ 8 : Nat) = (n % 2 ^ 32).toNat := by
    omega
  simp only [ntohl, htonl, UInt8.toNat_ofNat', toInt32, hbytes]
  rw [Int.toNat_of_nonneg (by omega)]
  exact mod_cast Int.emod_bmod n (2 ^ 32)

/-- `strHeader`. -/
structure Header where
  type : Int
  size : Int
  deriving DecidableEq, Repr

namespace Header

def bytes (h : Header) : Bytes := htonl h.type ++ htonl h.size

def ofBytes (bs : Bytes) : Header := ⟨ntohl (bs.take 4), ntohl ((bs.drop 4).take 4)⟩

@[simp] theorem length_bytes (h : Header) : h.bytes.length = 8 := rfl

@[simp] theorem ofBytes_bytes (h : Header) :
    ofBytes h.bytes = ⟨toInt32 h.type, toInt32 h.size⟩ := by
  have htake : (h.bytes).take 4 = htonl h.type := List.take_left' rfl
  have hdrop : (h.bytes).drop 4 = htonl h.size := List.drop_left' rfl
  rw [ofBytes, htake, hdrop, List.take_of_length_le (by simp), ntohl_htonl, ntohl_htonl]

theorem type_ofBytes (o : Opt) (size : Int) :
    (ofBytes (bytes ⟨o.code, size⟩)).type = o.code := by
  rw [ofBytes_bytes, toInt32_code]

theorem size_ofBytes (type : Int) (n : Nat) (h : n < 2 ^ 31) :
    (ofBytes (bytes ⟨type, n⟩)).size = n := by
  have hsize : toInt32 n = n := toInt32_of_range n (by omega) (by omega)
  simp only [ofBytes_bytes, hsize]

end Header

/-- A string in an array of 1024 characters: `strPathName`, `strMessage`. -/
structure CharArray where
  chars : Bytes
  noNul : 0 ∉ chars
  fits : chars.length < 1024

def CharArray.bytes (name : CharArray) : Bytes :=
  name.chars ++ List.replicate (1024 - name.chars.length) 0

/-- The string in a character array. -/
def cString (bs : Bytes) : Bytes := bs.takeWhile (· ≠ 0)

theorem length_cString_le (bs : Bytes) : (cString bs).length ≤ bs.length :=
  (List.takeWhile_prefix _).length_le

@[simp] theorem CharArray.length_bytes (name : CharArray) : name.bytes.length = 1024 := by
  have := name.fits
  simp [bytes]
  omega

@[simp] theorem CharArray.cString_bytes (name : CharArray) : cString name.bytes = name.chars := by
  have hne : ∀ c ∈ name.chars, c ≠ 0 := fun c hc h => name.noNul (h ▸ hc)
  obtain ⟨n, hn⟩ : ∃ n, 1024 - name.chars.length = n + 1 :=
    ⟨1023 - name.chars.length, by have := name.fits; omega⟩
  rw [cString, bytes, hn, List.takeWhile_append_of_pos (by simpa using hne), List.replicate_succ]
  simp

/-- `strFileInfo`. -/
structure FileInfo where
  name : CharArray
  size : Int

def FileInfo.bytes (info : FileInfo) : Bytes := info.name.bytes ++ htonl info.size

/-- `sFileInfo.size` of a received `strFileInfo`. -/
def fileInfoSize (bs : Bytes) : Int := ntohl (bs.drop 1024)

@[simp] theorem FileInfo.length_bytes (info : FileInfo) : info.bytes.length = 1028 := by
  simp [bytes]

theorem fileInfoSize_append (name : CharArray) (n : Int) :
    fileInfoSize (name.bytes ++ htonl n) = toInt32 n := by
  rw [fileInfoSize, List.drop_left' name.length_bytes, ntohl_htonl]

@[simp] theorem FileInfo.fileInfoSize_bytes (info : FileInfo) :
    fileInfoSize info.bytes = toInt32 info.size :=
  fileInfoSize_append _ _

@[simp] theorem FileInfo.cString_bytes (info : FileInfo) :
    cString (info.bytes.take 1024) = info.name.chars := by
  rw [bytes, List.take_left' info.name.length_bytes, CharArray.cString_bytes]

end Natc.Agent
