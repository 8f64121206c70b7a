import Relatedness.Proofs.Codec.Decoder
import Relatedness.Proofs.Similarity.Summary

/-! Saving a summary and loading it again. Its norms and its features are written as lists, in
whatever order, and read back one after the other, so what is loaded has the same entries. -/

namespace Relatedness.Summary

/-- Two summaries that are equal in every field. -/
structure Agrees {S : Type} (s t : Summary S) : Prop where
  forwardToken : s.forwardToken = t.forwardToken
  transposeToken : s.transposeToken = t.transposeToken
  forwardRows : s.forwardRows = t.forwardRows
  transposeRows : s.transposeRows = t.transposeRows
  norms : s.norms.toList = t.norms.toList
  features : s.features.toList = t.features.toList
  maxWidth : s.maxWidth = t.maxWidth

theorem Agrees.refl {S : Type} (s : Summary S) : s.Agrees s := ⟨rfl, rfl, rfl, rfl, rfl, rfl, rfl⟩

theorem Agrees.norm?_eq {S : Type} [Scalar S] {s t : Summary S} (h : s.Agrees t) (id : RowId) :
    s.norm? id = t.norm? id := by
  ext norm
  rw [norm?, norm?, ← Std.TreeMap.mem_toList_iff_getElem?_eq_some,
    ← Std.TreeMap.mem_toList_iff_getElem?_eq_some, h.norms]

theorem Agrees.hasFeature_eq {S : Type} [Scalar S] {s t : Summary S} (h : s.Agrees t)
    (id : FeatureId) : s.hasFeature id = t.hasFeature id := by
  rw [hasFeature, hasFeature, Bool.eq_iff_iff, Std.TreeSet.contains_iff_mem,
    Std.TreeSet.contains_iff_mem, ← Std.TreeSet.mem_toList, h.features, Std.TreeSet.mem_toList]

/-- Features are kept in the order of their ids. -/
theorem ascending_features (features : Std.TreeSet FeatureId) :
    features.toList.Pairwise fun a b => id a < id b :=
  features.ordered_toList.imp compareOfLessAndEq_eq_lt.mp

variable {s : Summary Binary64} {norms : List (RowId × Binary64)} {features : List FeatureId}

theorem toList_foldl_insert_features (hfeatures : features.Perm s.features.toList) :
    (features.foldl (fun ids id => ids.insert id) (∅ : Std.TreeSet FeatureId)).toList =
      s.features.toList := by
  refine Ascending.eq_of_mem_iff id (ascending_features _) (ascending_features _) fun id => ?_
  rw [Std.TreeSet.mem_toList, ← Std.TreeSet.contains_iff_mem, contains_foldl_insert,
    ← hfeatures.mem_iff]
  simp

/-- The numbers of a summary are written in words of eight bytes. -/
structure Fits (s : Summary Binary64) : Prop where
  forwardRows : s.forwardRows < 2 ^ 64
  transposeRows : s.transposeRows < 2 ^ 64
  maxWidth : s.maxWidth < 2 ^ 64

/-- The file of a summary whose norms and features are written in this order. -/
def encodeIn (s : Summary Binary64) (norms : List (RowId × Binary64)) (features : List FeatureId) :
    Bytes :=
  FileFormat.similarityCache.header ++ (Bytes.word 8 s.forwardToken.toNat ++
    (Bytes.word 8 s.transposeToken.toNat ++ (Bytes.word 8 s.forwardRows ++
    (Bytes.word 8 s.transposeRows ++
    ((Bytes.word 8 norms.length ++ norms.flatMap fun e =>
      Bytes.word 4 e.1.toNat ++ Bytes.word 8 e.2.bits.toNat) ++
    ((Bytes.word 8 features.length ++ features.flatMap (Bytes.word 4 ·.toNat)) ++
    Bytes.word 8 s.maxWidth))))))

/-- These bytes are the file of the summary, its norms and features written in some order. -/
def Writes (s : Summary Binary64) (bytes : Bytes) : Prop :=
  ∃ norms features, norms.Perm s.norms.toList ∧ features.Perm s.features.toList ∧
    bytes = s.encodeIn norms features

/-- A summary is saved with its norms and features ascending. -/
theorem writes_encode (s : Summary Binary64) : s.Writes s.encode := by
  refine ⟨s.norms.toList, s.features.toList, .refl _, .refl _, ?_⟩
  simp only [encode, encodeIn, Std.TreeMap.length_toList, Std.TreeSet.length_toList,
    List.append_assoc]

section Encoding

open Decoder

theorem takes_norms (hlength : norms.length < 2 ^ 64) :
    Takes (list do
      let id ← word 4
      let norm ← binary64
      return (UInt32.ofNat id, norm))
      (Bytes.word 8 norms.length ++ norms.flatMap fun e =>
        Bytes.word 4 e.1.toNat ++ Bytes.word 8 e.2.bits.toNat) norms := by
  have hitem : ∀ e ∈ norms, Takes (do
      let id ← word 4
      let norm ← binary64
      return (UInt32.ofNat id, norm))
      (Bytes.word 4 e.1.toNat ++ Bytes.word 8 e.2.bits.toNat) e := by
    intro e _
    refine (takes_word e.1.toNat_lt).bind ?_
    simp only [UInt32.ofNat_toNat]
    exact (takes_binary64 e.2).map
  have hlist := takes_list (f := fun e => e) hlength hitem
  rwa [List.map_id'] at hlist

theorem takes_features (hlength : features.length < 2 ^ 64) :
    Takes (list (word 4))
      (Bytes.word 8 features.length ++ features.flatMap (Bytes.word 4 ·.toNat))
      (features.map UInt32.toNat) :=
  takes_list hlength fun id _ => takes_word (n := 4) id.toNat_lt

/-- Whatever order a summary was written in, its file is read back with all its fields. -/
theorem Writes.exists_seals {bytes : Bytes} (hbytes : s.Writes bytes) (h : s.Fits) :
    ∃ saved : Summary Binary64, saved.Agrees s ∧
      FileFormat.similarityCache.Seals decoder bytes saved := by
  obtain ⟨norms, features, hnorms, hfeatures, rfl⟩ := hbytes
  have hasc := s.norms.ordered_keys_toList.imp compareOfLessAndEq_eq_lt.mp
  have hnormsLength : norms.length < 2 ^ 64 := by
    have hle := Ascending.length_le hasc
    rw [hnorms.length_eq]
    omega
  have hfeaturesLength : features.length < 2 ^ 64 := by
    have hle := Ascending.length_le (ascending_features s.features)
    rw [hfeatures.length_eq]
    omega
  let saved : Summary Binary64 := {
    forwardToken := UInt64.ofNat s.forwardToken.toNat
    transposeToken := UInt64.ofNat s.transposeToken.toNat
    forwardRows := s.forwardRows
    transposeRows := s.transposeRows
    norms := norms.foldl (fun norms e => norms.insert e.1 e.2) ∅
    features := (features.map UInt32.toNat).foldl
      (fun ids id => ids.insert (UInt32.ofNat id)) ∅
    maxWidth := s.maxWidth }
  refine ⟨saved, ⟨UInt64.ofNat_toNat, UInt64.ofNat_toNat, rfl, rfl, ?_, ?_, rfl⟩,
    FileFormat.seals_header .similarityCache ?_⟩
  · exact Ascending.toList_foldl_insert_of_perm hasc hnorms
  · simp only [saved, List.foldl_map, UInt32.ofNat_toNat]
    exact toList_foldl_insert_features hfeatures
  · refine (takes_word s.forwardToken.toNat_lt).bind ?_
    refine (takes_word s.transposeToken.toNat_lt).bind ?_
    refine (takes_word h.forwardRows).bind ?_
    refine (takes_word h.transposeRows).bind ?_
    refine (takes_norms hnormsLength).bind ?_
    exact (takes_features hfeaturesLength).bind (takes_word h.maxWidth).map

end Encoding

/-- A summary that was saved is loaded with all its fields. -/
theorem exists_load_encode (h : s.Fits) (path : Path) :
    ∃ saved, FileFormat.similarityCache.load decoder path s.encode = .ok saved ∧
      saved.Agrees s := by
  obtain ⟨saved, hagrees, hseals⟩ := s.writes_encode.exists_seals h
  have hload := hseals.load path []
  rw [List.append_nil] at hload
  exact ⟨saved, hload, hagrees⟩

end Relatedness.Summary
