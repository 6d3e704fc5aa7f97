import FusionFS.Lib.WireFormat
import FusionFS.RoundTrip

/-!
# Packages as C strings

A package is sent with the length `strlen` finds, and is read from a buffer with zeros behind it. Both
are right as long as no field encodes to a zero byte.
-/

namespace FusionFS

open Protobuf Package

/-- `SerializeAsString`, and `ParseFromString` or `ParseFromArray`. -/
structure Codec where
  serialize : Package → Bytes
  parse : Bytes → Package

/-- The wire format, with tags and lengths of any size. -/
def wireFormat : Codec where
  serialize p := Unbounded.encode p.fields
  parse data := Unbounded.decodeFields setField (data.length + 1) Package.empty data

/-- The library, which cuts tags and lengths to 32 bits. -/
def protobuf : Codec := ⟨Package.serialize, Package.parse⟩

namespace Codec

variable (c : Codec)

/-- What `c_zht_insert2` passes on. -/
def insert2 (key value : Bytes) : Bytes := c.serialize (insertPackage key value)

/-- What `c_zht_lookup2` passes on. -/
def lookup2 (key : Bytes) : Bytes :=
  c.serialize
    { virtualPath := some key
      realFullPath := none
      isDir := some true
      operation := some 1
      replicaNo := some 5 }

/-- What `c_zht_remove2` passes on. -/
def remove2 (key : Bytes) : Bytes :=
  c.serialize
    { virtualPath := some key
      realFullPath := none
      isDir := none
      operation := some 2
      replicaNo := none }

/-- What `ZHTClient::lookup` sends. -/
def lookup (str : Bytes) : Bytes :=
  c.serialize { c.parse str with operation := some 1, replicaNo := some 3 }

/-- What `ZHTClient::remove` sends. -/
def remove (str : Bytes) : Bytes :=
  c.serialize { c.parse str with operation := some 2, replicaNo := some 3 }

/-- What `HB_insert` stores of a package in the buffer. -/
def hbInsert (buff : Bytes) : Bytes := c.serialize (c.parse buff)

end Codec

/-- `strlen` finds the end of the message, and the message reads the same from a buffer with any
number of zeros behind it. -/
structure Carries (c : Codec) (msg key value : Bytes) (operation : Nat) (replicaNo : Option Nat) :
    Prop where
  zero_notMem : 0 ∉ msg
  strlen : (cString msg).length = msg.length
  key : ∀ n, (c.parse (msg ++ List.replicate n 0)).virtualpath = key
  value : ∀ n, (c.parse (msg ++ List.replicate n 0)).realfullpath = value
  operation : ∀ n, (c.parse (msg ++ List.replicate n 0)).operation = some operation
  replicaNo : ∀ n, (c.parse (msg ++ List.replicate n 0)).replicaNo = replicaNo

/-- Every message about a key, and the package that is stored under it. -/
structure StrlenFramed (c : Codec) (key value : Bytes) : Prop where
  insert2 : Carries c (c.insert2 key value) key value 3 (some 5)
  hbInsert : ∀ n, Carries c (c.hbInsert (c.insert2 key value ++ List.replicate n 0)) key value 3
    (some 5)
  lookup2 : Carries c (c.lookup2 key) key [] 1 (some 5)
  lookup : Carries c (c.lookup (c.lookup2 key)) key [] 1 (some 3)
  remove2 : Carries c (c.remove2 key) key [] 2 none
  remove : Carries c (c.remove (c.remove2 key)) key [] 2 (some 3)

/-- No field of the package encodes to a zero byte. -/
structure Zerofree (p : Package) : Prop where
  virtualPath : ∀ v ∈ p.virtualPath, v ≠ [] ∧ 0 ∉ v
  realFullPath : ∀ v ∈ p.realFullPath, v ≠ [] ∧ 0 ∉ v
  isDir : ∀ b ∈ p.isDir, b = true
  operation : ∀ n ∈ p.operation, 0 < n ∧ n < 2 ^ 31
  replicaNo : ∀ n ∈ p.replicaNo, 0 < n ∧ n < 2 ^ 31

/-- The package comes back from what it serializes to, whatever zeros there are behind it. -/
def Faithful (c : Codec) (p : Package) : Prop :=
  0 ∉ c.serialize p ∧ ∀ n, c.parse (c.serialize p ++ List.replicate n 0) = p

variable {c : Codec} {p : Package} {key value : Bytes}

/-- As far as the library goes it writes the wire format. -/
theorem serialize_protobuf (h : p.Clean) : protobuf.serialize p = wireFormat.serialize p :=
  (Unbounded.encode_eq h.fits).symm

theorem replicate_zero (n : Nat) :
    List.replicate n (0 : UInt8) = [] ∨ (List.replicate n (0 : UInt8)).head? = some 0 := by
  cases n with
  | zero => exact .inl rfl
  | succ n => exact .inr rfl

theorem Zerofree.field (h : Zerofree p) : ∀ field ∈ p.fields, 0 < field.1 ∧ match field.2 with
    | .varint n => 0 < n
    | .bytes payload => payload ≠ [] ∧ 0 ∉ payload :=
  zerofree_fields h.virtualPath h.realFullPath h.isDir h.operation h.replicaNo

theorem faithful_wireFormat (h : Zerofree p) : Faithful wireFormat p := by
  refine ⟨Unbounded.zero_notMem_encode h.field, fun n => ?_⟩
  have hfuel : p.fields.length <
      (Unbounded.encode p.fields ++ List.replicate n (0 : UInt8)).length + 1 := by
    have hle := Unbounded.length_le_length_encode p.fields
    rw [List.length_append]
    omega
  calc wireFormat.parse (wireFormat.serialize p ++ List.replicate n 0)
      = p.fields.foldl setField Package.empty :=
        Unbounded.decodeFields_encode setField (fun field hfield => (h.field field hfield).1)
          (replicate_zero n) hfuel _
    _ = p := foldl_fields (fun n hn => (h.operation n hn).2) fun n hn => (h.replicaNo n hn).2

theorem faithful_protobuf (h : Zerofree p) (hkey : ∀ v ∈ p.virtualPath, v.length < word)
    (hvalue : ∀ v ∈ p.realFullPath, v.length < word) : Faithful protobuf p := by
  have hclean : p.Clean :=
    ⟨fun v hv => ⟨(h.virtualPath v hv).1, (h.virtualPath v hv).2, hkey v hv⟩,
      fun v hv => ⟨(h.realFullPath v hv).1, (h.realFullPath v hv).2, hvalue v hv⟩, h.isDir,
      h.operation, h.replicaNo⟩
  refine ⟨?_, fun n => hclean.parse_serialize (replicate_zero n)⟩
  rw [serialize_protobuf hclean]
  exact (faithful_wireFormat h).1

theorem Faithful.carries (h : Faithful c p) {operation : Nat} (hop : p.operation = some operation) :
    Carries c (c.serialize p) p.virtualpath p.realfullpath operation p.replicaNo where
  zero_notMem := h.1
  strlen := by rw [cString_eq_self.mpr h.1]
  key n := by rw [h.2]
  value n := by rw [h.2]
  operation n := by rw [h.2, hop]
  replicaNo n := by rw [h.2]

theorem Faithful.parse_serialize (h : Faithful c p) : c.parse (c.serialize p) = p := by
  have hnone := h.2 0
  rwa [List.replicate_zero, List.append_nil] at hnone

/-- The packages about a key have fields without zeros only, so what keeps such packages keeps the
messages. -/
theorem strlenFramed_of_faithful (hkey : key ≠ []) (hkey0 : 0 ∉ key) (hvalue0 : 0 ∉ value)
    (hc : ∀ p, Zerofree p → p.virtualPath = some key → (∀ v ∈ p.realFullPath, v = value) →
      Faithful c p) : StrlenFramed c key value := by
  have hpath : ∀ v ∈ some key, v ≠ [] ∧ 0 ∉ v := by
    intro v hv
    obtain rfl := Option.some.inj hv
    exact ⟨hkey, hkey0⟩
  have hnumber : ∀ m : Nat, 0 < m ∧ m < 2 ^ 31 → ∀ n ∈ some m, 0 < n ∧ n < 2 ^ 31 := by
    intro m hm n hn
    obtain rfl := Option.some.inj hn
    exact hm
  have hnone : ∀ {α : Type} {P : α → Prop}, ∀ v ∈ (none : Option α), P v :=
    fun v hv => absurd hv (Option.not_mem_none v)
  have htrue : ∀ b ∈ some true, b = true := fun b hb => (Option.some.inj hb).symm
  have hinsert : Faithful c (insertPackage key value) := by
    apply hc _ _ rfl fun v hv => (mem_realFullPath_insertPackage hv).1
    refine ⟨hpath, fun v hv => ?_, htrue, hnumber 3 (by decide), hnumber 5 (by decide)⟩
    obtain ⟨rfl, hne⟩ := mem_realFullPath_insertPackage hv
    exact ⟨hne, hvalue0⟩
  have hrest : ∀ (isDir : Option Bool) (op : Nat) (replicaNo : Option Nat),
      (∀ b ∈ isDir, b = true) → (0 < op ∧ op < 2 ^ 31) →
      (∀ n ∈ replicaNo, 0 < n ∧ n < 2 ^ 31) →
      Faithful c ⟨some key, none, isDir, some op, replicaNo⟩ := by
    intro isDir op replicaNo hdir hop hrep
    exact hc _ ⟨hpath, hnone, hdir, hnumber op hop, hrep⟩ rfl hnone
  have hlookup2 := hrest (some true) 1 (some 5) htrue (by decide) (hnumber 5 (by decide))
  have hlookup := hrest (some true) 1 (some 3) htrue (by decide) (hnumber 3 (by decide))
  have hremove2 := hrest none 2 none hnone (by decide) hnone
  have hremove := hrest none 2 (some 3) hnone (by decide) (hnumber 3 (by decide))
  have hvalue := realfullpath_insertPackage key value
  have hinserted : Carries c (c.insert2 key value) key (insertPackage key value).realfullpath 3
      (some 5) := hinsert.carries rfl
  rw [hvalue] at hinserted
  refine ⟨hinserted, fun n => ?_, hlookup2.carries rfl, ?_, hremove2.carries rfl, ?_⟩
  · rw [Codec.hbInsert, Codec.insert2, hinsert.2 n]
    exact hinserted
  · rw [Codec.lookup, Codec.lookup2, hlookup2.parse_serialize]
    exact hlookup.carries rfl
  · rw [Codec.remove, Codec.remove2, hremove2.parse_serialize]
    exact hremove.carries rfl

/-- **`strlen` framing is lossless, and zero padding is harmless**, for keys and values of any length;
and so it is with the library, for those whose lengths it does not cut. -/
theorem strlenFraming (key value : Bytes) (hkey : key ≠ []) (hkey0 : 0 ∉ key) (hvalue0 : 0 ∉ value) :
    StrlenFramed wireFormat key value ∧
      (key.length < word → value.length < word → StrlenFramed protobuf key value) := by
  constructor
  · apply strlenFramed_of_faithful hkey hkey0 hvalue0
    exact fun p hp _ _ => faithful_wireFormat hp
  · intro hkeyLen hvalueLen
    apply strlenFramed_of_faithful hkey hkey0 hvalue0
    intro p hp hpath hvalue
    apply faithful_protobuf hp
    · intro v hv
      rw [hpath] at hv
      obtain rfl := Option.some.inj hv
      exact hkeyLen
    · intro v hv
      rw [hvalue v hv]
      exact hvalueLen

/-- A listing of 200 bytes, whose length takes two. -/
theorem strlenFraming_listing :
    StrlenFramed wireFormat (cstr "dir/") (List.replicate 200 110) ∧
      StrlenFramed protobuf (cstr "dir/") (List.replicate 200 110) := by
  have hnul : (0 : UInt8) ∉ List.replicate 200 110 := by
    intro hmem
    exact absurd (List.eq_of_mem_replicate hmem) (by decide)
  have hlen : (List.replicate 200 (110 : UInt8)).length < word := by
    rw [List.length_replicate]
    decide
  obtain ⟨hwire, hproto⟩ := strlenFraming (cstr "dir/") (List.replicate 200 110) (by decide)
    (by decide) hnul
  exact ⟨hwire, hproto (by decide) hlen⟩

end FusionFS
