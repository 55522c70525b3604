import Mathlib
import CrossCall.Parse.Source

/-! Byte offsets in a text and in a part that is cut out of it. Rows count the newlines before an
offset, so the rows of a part and those before it add up, and a piece of a part is a piece of the
whole. A part that is well-formed begins and ends between two characters. -/
namespace CrossCall.Source

variable {src : Source} {t : Tree} {s : String} {a b o : Nat}

/-! ### Bytes -/

/-- The text between two offsets, if its bytes are well-formed. -/
def between? (src : Source) (a b : Nat) : Option String := String.fromUTF8? (src.bytes.extract a b)

theorem textOf?_eq (src : Source) (t : Tree) : src.textOf? t = src.between? t.start t.stop := rfl

theorem fromUTF8?_eq_some {bytes : ByteArray} :
    String.fromUTF8? bytes = some s ↔ bytes = s.toUTF8 := by
  unfold String.fromUTF8?
  constructor
  · intro h
    split at h
    · cases h
      rfl
    · cases h
  · rintro rfl
    exact dif_pos s.isValidUTF8

theorem between?_eq_some : src.between? a b = some s ↔ src.bytes.extract a b = s.toUTF8 :=
  fromUTF8?_eq_some

/-- The bytes of a part are those of the whole, from the start of the part on. -/
theorem extract_part (h : src.between? a b = some s) {c d : Nat} (hd : d ≤ s.utf8ByteSize) :
    (bytes ⟨s⟩).extract c d = src.bytes.extract (a + c) (a + d) := by
  have hbytes : bytes ⟨s⟩ = src.bytes.extract a b := (between?_eq_some.mp h).symm
  have hsize : s.utf8ByteSize = min b src.bytes.size - a := by
    rw [← ByteArray.size_extract, ← hbytes]
    rfl
  rw [hbytes, ByteArray.extract_extract]
  by_cases hend : a + d ≤ b
  · rw [min_eq_left hend]
  · -- Behind the end of the whole a part is empty.
    rw [ByteArray.extract_eq_empty_iff.mpr (by omega),
      ByteArray.extract_eq_empty_iff.mpr (by omega)]

/-- A piece of a part is the piece of the whole that stands there. -/
theorem between?_add (h : src.between? a b = some s) {c d : Nat} (hd : d ≤ s.utf8ByteSize) :
    src.between? (a + c) (a + d) = between? ⟨s⟩ c d := by
  rw [between?, between?, extract_part h hd]

/-! ### Rows -/

theorem toList_loop (bytes : ByteArray) (i : Nat) (r : List UInt8) :
    ByteArray.toList.loop bytes i r = r.reverse ++ bytes.data.toList.drop i := by
  fun_induction ByteArray.toList.loop bytes i r with
  | case1 i r hi ih =>
    have hcons := List.drop_eq_getElem_cons (l := bytes.data.toList) (i := i) (by simpa using hi)
    rw [ih, hcons]
    simp [ByteArray.get!, hi]
  | case2 i r hi =>
    have hnone : bytes.data.toList.drop i = [] := List.drop_eq_nil_of_le (by simpa using hi)
    rw [hnone, List.append_nil]

theorem toList_eq (bytes : ByteArray) : bytes.toList = bytes.data.toList := by
  rw [ByteArray.toList, toList_loop]
  simp

theorem row_foldl_advance (p : Point) (bytes : List UInt8) :
    (bytes.foldl advance p).row = p.row + bytes.count 10 := by
  induction bytes generalizing p with
  | nil => rfl
  | cons x rest ih =>
    rw [List.foldl_cons, ih, List.count_cons]
    by_cases hx : x = 10
    · simp [advance, hx, Nat.add_assoc, Nat.add_comm 1]
    · simp [advance, hx]

/-- The row of an offset is the number of newlines before it. -/
theorem row_point (src : Source) (o : Nat) :
    (src.point o).row = (src.bytes.extract 0 o).data.toList.count 10 := by
  rw [point, row_foldl_advance, toList_eq, Nat.zero_add]

/-- The rows of a part and those before it add up. -/
theorem row_point_add (h : src.between? a b = some s) (ho : o ≤ s.utf8ByteSize) :
    (src.point (a + o)).row = (src.point a).row + (point ⟨s⟩ o).row := by
  have hpart : (bytes ⟨s⟩).extract 0 o = src.bytes.extract a (a + o) := extract_part h ho
  have hsplit : src.bytes.extract 0 (a + o) =
      src.bytes.extract 0 a ++ src.bytes.extract a (a + o) :=
    ByteArray.extract_eq_extract_append_extract a (Nat.zero_le a) (Nat.le_add_right a o)
  rw [row_point, row_point, row_point, hpart, hsplit, ByteArray.toList_data_append,
    List.count_append]

/-! ### Parts between characters -/

/-- A part from one offset to another, or to the end of the text, with what stands before and behind
it. -/
structure Cut (src : Source) (a b : Nat) (pre s post : String) : Prop where
  text : src.text = pre ++ s ++ post
  start : pre.utf8ByteSize = a
  stop : a + s.utf8ByteSize = min b src.text.utf8ByteSize

/-- An offset at which well-formed bytes begin stands between two characters. -/
theorem exists_before (h : src.between? a b = some s) (hs : s ≠ "") :
    ∃ pre rest, src.text = pre ++ rest ∧ pre.utf8ByteSize = a := by
  have hbytes : src.bytes.extract a b = s.toByteArray := between?_eq_some.mp h
  have hpos : 0 < (src.bytes.extract a b).size := by
    rw [hbytes, String.size_toByteArray]
    exact Nat.pos_of_ne_zero (by simpa using hs)
  have hinside : a < src.text.utf8ByteSize := by
    rw [ByteArray.size_extract] at hpos
    have hsize : src.bytes.size = src.text.utf8ByteSize := rfl
    omega
  have hfirst : (src.bytes.extract a b)[0].IsUTF8FirstByte := by
    have hvalid : (src.bytes.extract a b).IsValidUTF8 := hbytes ▸ s.isValidUTF8
    exact hvalid.isUTF8FirstByte_getElem_zero hpos
  rw [ByteArray.getElem_extract] at hfirst
  have hvalid : String.Pos.Raw.IsValid src.text ⟨a⟩ := by
    rw [String.Pos.Raw.isValid_iff_isUTF8FirstByte]
    exact .inr ⟨hinside, hfirst⟩
  obtain ⟨pre, rest, htext, hend⟩ := String.Pos.Raw.isValid_iff_exists_append.mp hvalid
  exact ⟨pre, rest, htext, (congrArg String.Pos.Raw.byteIdx hend).symm⟩

/-- A part that is well-formed by itself ends between two characters as well. -/
theorem exists_cut (h : src.between? a b = some s) (hs : s ≠ "") :
    ∃ pre post, Cut src a b pre s post := by
  obtain ⟨pre, rest, htext, rfl⟩ := exists_before h hs
  have hbytes : src.bytes.extract pre.utf8ByteSize b = s.toByteArray := between?_eq_some.mp h
  have hwhole : src.bytes = pre.toByteArray ++ rest.toByteArray := by
    rw [bytes, String.toUTF8_eq_toByteArray, htext, String.toByteArray_append]
  have hnone : pre.toByteArray.extract pre.utf8ByteSize b = ByteArray.empty :=
    ByteArray.extract_eq_empty_iff.mpr (Nat.min_le_right b _)
  have hpart : rest.toByteArray.extract 0 (b - pre.utf8ByteSize) = s.toByteArray := by
    rw [← hbytes, hwhole, ByteArray.extract_append, hnone, ByteArray.empty_append,
      String.size_toByteArray, Nat.sub_self]
  have hrest : s.toByteArray ++
      rest.toByteArray.extract (b - pre.utf8ByteSize) rest.toByteArray.size = rest.toByteArray := by
    rw [← hpart, ByteArray.extract_append_extract, Nat.zero_min, ByteArray.extract_zero_max_size]
  rw [← String.utf8Encode_toList, ← String.utf8Encode_toList (b := rest)] at hrest
  obtain ⟨post, hpost⟩ := List.isPrefix_of_utf8Encode_append_eq_utf8Encode _ hrest
  refine ⟨pre, String.ofList post, ?_, rfl, ?_⟩
  · have hsplit : rest = s ++ String.ofList post := by
      rw [← String.toList_inj, String.toList_append, String.toList_ofList, hpost]
    rw [htext, hsplit, String.append_assoc]
  · have hsize := congrArg ByteArray.size hbytes
    rw [ByteArray.size_extract, String.size_toByteArray] at hsize
    have hpos : s.utf8ByteSize ≠ 0 := by simpa using hs
    have hsame : src.bytes.size = src.text.utf8ByteSize := rfl
    omega

end CrossCall.Source
