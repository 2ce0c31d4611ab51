import AppAtlas.Proofs.Numerals

/-!
# What identities are made from

An identity is the hash of a sequence of bytes.  The sequence holds no lengths, but it tells what it
was made from: no text has the separator among its UTF-8 bytes, so a text ends where the first
separator stands, and the numbers in front of an edge's kind take eight bytes each.  What is left
for two identities to meet is that the hash sends two sequences to one number.

* `Fnv.Collide`: two sequences that only the hash takes for one.
* `identity_bytes_tell_fields_apart`: sequences and identities of nodes, edges and files.
-/

namespace AppAtlas

open List

namespace Fnv

variable {s t : String} {a b : List UInt8}

/-! ### Texts -/

theorem toList_loop (bytes : ByteArray) (i : Nat) (r : List UInt8) :
    ByteArray.toList.loop bytes i r = r.reverse ++ bytes.data.toList.drop i := by
  fun_induction ByteArray.toList.loop bytes i r with
  | case1 i r h ih =>
    have hi : i < bytes.data.toList.length := by simpa using h
    rw [ih, drop_eq_getElem_cons hi]
    simp [ByteArray.get!, h]
  | case2 i r h =>
    have hi : bytes.data.toList.length ≤ i := by simpa using h
    simp [drop_eq_nil_of_le hi]

theorem toList_toByteArray (s : String) :
    s.toByteArray.toList = s.toList.flatMap String.utf8EncodeChar := by
  have hbytes : s.toByteArray = (s.toList.flatMap String.utf8EncodeChar).toByteArray := by
    rw [← utf8Encode, ← String.toByteArray_ofList, String.ofList_toList]
  rw [hbytes, ByteArray.toList, toList_loop, toList_data_toByteArray]
  rfl

theorem toByteArray_toList_injective (h : s.toByteArray.toList = t.toByteArray.toList) : s = t := by
  rw [ByteArray.toList, ByteArray.toList, toList_loop, toList_loop] at h
  exact String.toByteArray_inj.mp (ByteArray.ext (Array.toList_inj.mp h))

/-- **UTF-8 has no byte 255.** -/
theorem separator_not_mem (s : String) : (0xff : UInt8) ∉ s.toByteArray.toList := by
  have hbyte (n : Nat) (hn : n < 255) : (0xff : UInt8) ≠ UInt8.ofNat n := by
    intro h
    have hn' : 255 = n % 256 := congrArg UInt8.toNat h
    omega
  rw [toList_toByteArray, mem_flatMap]
  rintro ⟨c, -, hc⟩
  rw [String.utf8EncodeChar] at hc
  -- one case for each number of bytes that a character takes
  split at hc
  · exact hbyte _ (by omega) (mem_singleton.mp hc)
  · split at hc
    · simp only [mem_cons, not_mem_nil, or_false] at hc
      rcases hc with hc | hc <;> exact hbyte _ (by omega) hc
    · split at hc
      · simp only [mem_cons, not_mem_nil, or_false] at hc
        rcases hc with hc | hc | hc <;> exact hbyte _ (by omega) hc
      · simp only [mem_cons, not_mem_nil, or_false] at hc
        rcases hc with hc | hc | hc | hc <;> exact hbyte _ (by omega) hc

theorem append_cons_inj {x : UInt8} {front front' : List UInt8} (h : x ∉ front) (h' : x ∉ front') :
    front ++ x :: a = front' ++ x :: b ↔ front = front' ∧ a = b := by
  induction front generalizing front' with
  | nil =>
    cases front' with
    | nil => simp
    | cons y front' => simp [ne_of_not_mem_cons h']
  | cons y front ih =>
    cases front' with
    | nil => simp [Ne.symm (ne_of_not_mem_cons h)]
    | cons z front' =>
      simp only [cons_append, cons.injEq, and_assoc,
        ih (not_mem_of_not_mem_cons h) (not_mem_of_not_mem_cons h')]

/-- **A text is read off the front of a sequence.** -/
theorem field_append_inj : field s ++ a = field t ++ b ↔ s = t ∧ a = b := by
  rw [field, field, append_assoc, append_assoc, singleton_append,
    singleton_append, append_cons_inj (separator_not_mem s) (separator_not_mem t)]
  exact and_congr_left' ⟨toByteArray_toList_injective, fun h => by rw [h]⟩

theorem field_inj : field s = field t ↔ s = t := by
  rw [← append_nil (field s), ← append_nil (field t), field_append_inj]
  exact and_iff_left rfl

/-! ### Collisions -/

/-- Two sequences of bytes that are different and have one hash. -/
def Collide (a b : List UInt8) : Prop :=
  a ≠ b ∧ hash a = hash b

theorem hash_eq_iff : hash a = hash b ↔ a = b ∨ Collide a b := by
  by_cases h : a = b <;> simp [Collide, h]

end Fnv

/-! ### Numbers -/

theorem mod_pow_eq_of_forall {m n base k : Nat}
    (h : ∀ i < k, m / base ^ i % base = n / base ^ i % base) : m % base ^ k = n % base ^ k := by
  induction k with
  | zero => rw [Nat.pow_zero, Nat.mod_one, Nat.mod_one]
  | succ k ih =>
    rw [Nat.mod_pow_succ, Nat.mod_pow_succ, ih fun i hi => h i (by omega), h k (by omega)]

theorem bigEndian_eq_map (n : UInt64) :
    bigEndian n = [7, 6, 5, 4, 3, 2, 1, 0].map fun i => UInt8.ofNat (n.toNat / 256 ^ i) := by
  simp [bigEndian, ← UInt8.toNat_inj, Nat.shiftRight_eq_div_pow]

theorem bigEndian_injective {m n : UInt64} (h : bigEndian m = bigEndian n) : m = n := by
  rw [bigEndian_eq_map, bigEndian_eq_map, map_inj_left] at h
  have hbyte : ∀ i < 8, m.toNat / 256 ^ i % 256 = n.toNat / 256 ^ i % 256 := fun i hi =>
    congrArg UInt8.toNat (h i (by simp; omega))
  have hmod := mod_pow_eq_of_forall hbyte
  have hm : m.toNat < 256 ^ 8 := m.toNat_lt
  have hn : n.toNat < 256 ^ 8 := n.toNat_lt
  rw [Nat.mod_eq_of_lt hm, Nat.mod_eq_of_lt hn] at hmod
  exact UInt64.toNat_inj.mp hmod

theorem bigEndian_append_inj {m n : UInt64} {a b : List UInt8} :
    bigEndian m ++ a = bigEndian n ++ b ↔ m = n ∧ a = b := by
  constructor
  · intro h
    obtain ⟨hnumber, hrest⟩ := append_inj h rfl
    exact ⟨bigEndian_injective hnumber, hrest⟩
  · rintro ⟨rfl, rfl⟩
    rfl

theorem EdgeKind.name_inj {k l : EdgeKind} : k.name = l.name ↔ k = l :=
  ⟨fun h => Option.some.inj (by rw [← k.ofName?_name, h, l.ofName?_name]), fun h => by rw [h]⟩

/-! ### Identities -/

/-- **The bytes of an identity determine what it is the identity of.**  Two nodes have one sequence
exactly if their kinds share a namespace and their signatures are the same, two edges if they have
the same ends and kind, two versions of files if their normalised paths and contents are the same.
So different things have one identity exactly if their sequences collide. -/
theorem identity_bytes_tell_fields_apart :
    (∀ (k l : NodeKind) (s t : String),
      (NodeId.bytes k s = NodeId.bytes l t ↔ k.space = l.space ∧ s = t) ∧
      (NodeId.of k s = NodeId.of l t ↔
        (k.space = l.space ∧ s = t) ∨ Fnv.Collide (NodeId.bytes k s) (NodeId.bytes l t))) ∧
    (∀ (a b a' b' : NodeId) (k l : EdgeKind),
      (EdgeId.bytes a b k = EdgeId.bytes a' b' l ↔ a = a' ∧ b = b' ∧ k = l) ∧
      (EdgeId.of a b k = EdgeId.of a' b' l ↔
        (a = a' ∧ b = b' ∧ k = l) ∨ Fnv.Collide (EdgeId.bytes a b k) (EdgeId.bytes a' b' l))) ∧
    ∀ p q c d : String,
      (FileKey.bytes p c = FileKey.bytes q d ↔ FilePath.normalize p = FilePath.normalize q ∧ c = d) ∧
      (FileKey.of p c = FileKey.of q d ↔
        (FilePath.normalize p = FilePath.normalize q ∧ c = d) ∨
          Fnv.Collide (FileKey.bytes p c) (FileKey.bytes q d)) := by
  refine ⟨fun k l s t => ?_, fun a b a' b' k l => ?_, fun p q c d => ?_⟩
  · have hbytes : NodeId.bytes k s = NodeId.bytes l t ↔ k.space = l.space ∧ s = t := by
      rw [NodeId.bytes, NodeId.bytes, Fnv.field_append_inj, Fnv.field_inj]
    exact ⟨hbytes, by rw [NodeId.of, NodeId.of, NodeId.mk.injEq, Fnv.hash_eq_iff, hbytes]⟩
  · have hbytes : EdgeId.bytes a b k = EdgeId.bytes a' b' l ↔ a = a' ∧ b = b' ∧ k = l := by
      rw [EdgeId.bytes, EdgeId.bytes, append_assoc, append_assoc, bigEndian_append_inj,
        bigEndian_append_inj, Fnv.field_inj, EdgeKind.name_inj, ← NodeId.mk.injEq,
        ← NodeId.mk.injEq b.val]
    exact ⟨hbytes, by rw [EdgeId.of, EdgeId.of, EdgeId.mk.injEq, Fnv.hash_eq_iff, hbytes]⟩
  · have hbytes : FileKey.bytes p c = FileKey.bytes q d ↔
        FilePath.normalize p = FilePath.normalize q ∧ c = d := by
      rw [FileKey.bytes, FileKey.bytes, Fnv.field_append_inj, Fnv.field_inj]
    have hhex : FileKey.of p c = FileKey.of q d ↔
        Fnv.hash (FileKey.bytes p c) = Fnv.hash (FileKey.bytes q d) := by
      rw [FileKey.of, FileKey.of, FileKey.mk.injEq]
      exact ⟨hex16_injective, congrArg hex16⟩
    exact ⟨hbytes, by rw [hhex, Fnv.hash_eq_iff, hbytes]⟩

end AppAtlas
