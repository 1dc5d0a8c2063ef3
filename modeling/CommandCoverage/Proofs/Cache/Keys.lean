import CommandCoverage.Cache.Basic
import Mathlib.Data.List.Basic
import Mathlib.Data.String.Basic

namespace CommandCoverage

namespace Digest

theorem length_bytesOf (k n : Nat) : (bytesOf k n).length = k := by
  rw [bytesOf, List.length_map, List.length_range]

theorem length_compress {hash : List UInt32} (h : hash.length = 8) (block : List UInt32) :
    (compress hash block).length = 8 := by
  simp [compress, State.words, h]

theorem length_compressAll (n : Nat) {hash : List UInt32} (h : hash.length = 8)
    (words : List UInt32) : (compressAll n hash words).length = 8 := by
  induction n generalizing hash words with
  | zero => exact h
  | succ n ih => exact ih (length_compress h _) _

theorem length_sha256 (bytes : List UInt8) : (sha256 bytes).length = 32 := by
  have hinitial : initialWords.length = 8 := rfl
  have hwords := length_compressAll ((wordsOf (padded bytes)).length / 16) hinitial
    (wordsOf (padded bytes))
  simp [sha256, List.length_flatMap, length_bytesOf, hwords]

theorem hexDigit_inj : ∀ m < 16, ∀ n < 16, hexDigit m = hexDigit n → m = n := by
  decide

theorem length_hex (bytes : List UInt8) : (hex bytes).toList.length = 2 * bytes.length := by
  induction bytes with
  | nil => rfl
  | cons b bytes ih =>
    rw [hex, String.toList_ofList] at ih ⊢
    rw [List.flatMap_cons, List.length_append, ih, List.length_cons]
    simp
    omega

theorem hex_injective : Function.Injective hex := by
  intro as bs h
  have hdigits := congrArg String.toList h
  rw [hex, hex, String.toList_ofList, String.toList_ofList] at hdigits
  clear h
  induction as generalizing bs with
  | nil => cases bs <;> simp_all
  | cons a as ih =>
    cases bs with
    | nil => simp at hdigits
    | cons b bs =>
      simp only [List.flatMap_cons, List.cons_append, List.nil_append, List.cons.injEq] at hdigits
      obtain ⟨hhigh, hlow, hrest⟩ := hdigits
      have ha := a.toNat_lt
      have hb := b.toNat_lt
      have hdiv := hexDigit_inj _ (by omega) _ (by omega) hhigh
      have hmod := hexDigit_inj _ (by omega) _ (by omega) hlow
      have hab : a.toNat = b.toNat := by omega
      rw [UInt8.toNat_inj.1 hab, ih hrest]

end Digest

namespace Text

theorem toList_loop (bytes : ByteArray) (i : Nat) (seen : List UInt8) :
    ByteArray.toList.loop bytes i seen = seen.reverse ++ bytes.data.toList.drop i := by
  fun_induction ByteArray.toList.loop bytes i seen with
  | case1 i seen h ih =>
    have hsize : i < bytes.data.toList.length := h
    have hget : bytes.get! i = bytes.data.toList[i] := by simp [ByteArray.get!, h]
    rw [ih, hget, List.reverse_cons, List.append_assoc, List.singleton_append,
      ← List.drop_eq_getElem_cons hsize]
  | case2 i seen h =>
    have hsize : bytes.data.toList.length ≤ i := Nat.le_of_not_lt h
    rw [List.drop_eq_nil_of_le hsize, List.append_nil]

theorem toList_toUTF8 (s : String) :
    s.toUTF8.toList = s.toList.flatMap String.utf8EncodeChar := by
  have hdata : s.toUTF8.data.toList = s.toList.flatMap String.utf8EncodeChar := by
    rw [String.toUTF8, ← String.utf8Encode_toList, List.utf8Encode, List.toList_data_toByteArray]
  rw [ByteArray.toList, toList_loop, hdata]
  rfl

theorem utf8EncodeChar_append_inj {c d : Char} {as bs : List UInt8}
    (h : String.utf8EncodeChar c ++ as = String.utf8EncodeChar d ++ bs) : c = d ∧ as = bs := by
  have hbytes := congrArg List.toByteArray h
  rw [List.toByteArray_append, List.toByteArray_append] at hbytes
  have hchars := congrArg (·.utf8DecodeChar? 0) hbytes
  simp only [ByteArray.utf8DecodeChar?_utf8EncodeChar_append, Option.some.injEq] at hchars
  subst hchars
  exact ⟨rfl, List.append_cancel_left h⟩

theorem flatMap_utf8EncodeChar_append_inj {cs ds : List Char} {as bs : List UInt8}
    (hl : cs.length = ds.length)
    (h : cs.flatMap String.utf8EncodeChar ++ as = ds.flatMap String.utf8EncodeChar ++ bs) :
    cs = ds ∧ as = bs := by
  induction cs generalizing ds with
  | nil =>
    obtain rfl : ds = [] := List.length_eq_zero_iff.1 hl.symm
    exact ⟨rfl, h⟩
  | cons c cs ih =>
    cases ds with
    | nil => simp at hl
    | cons d ds =>
      rw [List.flatMap_cons, List.flatMap_cons, List.append_assoc, List.append_assoc] at h
      obtain ⟨rfl, hrest⟩ := utf8EncodeChar_append_inj h
      obtain ⟨rfl, rfl⟩ := ih (by simpa using hl) hrest
      exact ⟨rfl, rfl⟩

end Text

namespace CacheKey

variable {p q c d : String}

def digest (bytes : List UInt8) : List UInt8 := (Digest.sha256 bytes).take 8

theorem length_digest (bytes : List UInt8) : (digest bytes).length = 8 := by
  rw [digest, List.length_take, Digest.length_sha256]
  rfl

theorem hashed_inj (hl : p.toList.length = q.toList.length) (h : hashed p c = hashed q d) :
    p = q ∧ c = d := by
  simp only [hashed, Text.toList_toUTF8] at h
  obtain ⟨hpath, hrest⟩ := Text.flatMap_utf8EncodeChar_append_inj hl h
  refine ⟨String.toList_inj.1 hpath, String.toByteArray_inj.1 ?_⟩
  rw [← String.utf8Encode_toList, ← String.utf8Encode_toList]
  exact congrArg List.toByteArray (List.cons_eq_cons.1 hrest).2

theorem length_safePath (p : String) : (safePath p).toList.length = p.toList.length := by
  simp [safePath]

theorem ofNormalized_eq (h : ofNormalized p c = ofNormalized q d) :
    safePath p = safePath q ∧ digest (hashed p c) = digest (hashed q d) := by
  have hchars := congrArg String.toList h
  simp only [ofNormalized, String.toList_append] at hchars
  have hlength (bytes : List UInt8) :
      (Digest.hex ((Digest.sha256 bytes).take 8)).toList.length = 16 := by
    rw [Digest.length_hex]
    exact congrArg (2 * ·) (length_digest bytes)
  obtain ⟨hstart, hdigest⟩ := List.append_inj' hchars ((hlength _).trans (hlength _).symm)
  obtain ⟨hsafe, -⟩ := List.append_inj' hstart rfl
  exact ⟨String.toList_inj.1 hsafe, Digest.hex_injective (String.toList_inj.1 hdigest)⟩

abbrev Pair : Type := String × String

def hashedOf (sources : Set Pair) : Set (List UInt8) := (fun x ↦ hashed x.1 x.2) '' sources

/-- What is kept of the digest tells sources apart when it does so for all of a list. -/
theorem injOn_digest_of_known {sources : Set Pair} {known : List Pair}
    (hknown : ∀ x ∈ sources, x ∈ known)
    (h : ∀ x ∈ known, ∀ y ∈ known, digest (hashed x.1 x.2) = digest (hashed y.1 y.2) →
      hashed x.1 x.2 = hashed y.1 y.2) : Set.InjOn digest (hashedOf sources) := by
  rintro _ ⟨x, hx, rfl⟩ _ ⟨y, hy, rfl⟩ hxy
  exact h x (hknown x hx) y (hknown y hy) hxy

/-- No two sources share a key, as long as no two byte strings that are hashed for them share what
is kept of the digest. -/
theorem injOn_ofNormalized {sources : Set Pair} (h : Set.InjOn digest (hashedOf sources)) :
    Set.InjOn (fun x ↦ ofNormalized x.1 x.2) sources := by
  intro x hx y hy hkey
  obtain ⟨hsafe, hdigest⟩ := ofNormalized_eq hkey
  have hl : x.1.toList.length = y.1.toList.length := by
    rw [← length_safePath, hsafe, length_safePath]
  have hhashed := h (Set.mem_image_of_mem _ hx) (Set.mem_image_of_mem _ hy) hdigest
  obtain ⟨hpath, hcontent⟩ := hashed_inj hl hhashed
  exact Prod.ext hpath hcontent

end CacheKey

end CommandCoverage
