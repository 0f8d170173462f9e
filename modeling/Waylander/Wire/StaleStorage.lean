import Waylander.Wire.RoundTrip
import Waylander.Wire.Subscripts

/-!
# Contents of uninitialised storage

Two runs of the same appends, in one of which new elements of the buffer come up
with other contents.  Every byte of a message but its padding is written, so the
released data are the same in both exactly if the messages have no padding.
-/

namespace Waylander

open LittleEndian Buffer

/-- The bytes behind the length word make up whole words. -/
def Argument.FillsWords : Argument → Prop
  | .static _ => True
  | .wstring str => 4 ∣ str.length + 1
  | .warray arr => 4 ∣ arr.length
  | .wfd _ => True

theorem Argument.fillsWords_iff (arg : Argument) : arg.FillsWords ↔ arg.padding = 0 := by
  cases arg with
  | static p => simp [FillsWords, padding, contents, roundUptoMultipleOf]
  | wstring str =>
      simp only [FillsWords, padding, contents, roundUptoMultipleOf, List.length_append,
        toBytes_length, List.length_singleton]
      omega
  | warray arr =>
      simp only [FillsWords, padding, contents, roundUptoMultipleOf, List.length_append,
        toBytes_length]
      omega
  | wfd fd => simp [FillsWords, padding, contents, roundUptoMultipleOf]

/-- What `release_data` returns after the messages were appended to an empty
buffer does not depend on what its storage contained before. -/
def StorageIndependent (build : Build) (msgs : List (Wobject × Message)) : Prop :=
  ∀ (stale stale' : ℕ → Byte) (buf buf' : MessageBuffer),
    appendAll build stale {} msgs = .ok buf → appendAll build stale' {} msgs = .ok buf' →
      (releaseData buf).1 = (releaseData buf').1

/-! ## One message -/

theorem fresh_zero (fill : ℕ → Byte) (start : ℕ) : fresh fill start 0 = [] := rfl

theorem fresh_inj {start k : ℕ}
    (h : fresh (fun _ => 0) start k = fresh (fun _ => (1 : Byte)) start k) : k = 0 := by
  cases k with
  | zero => rfl
  | succ k => simp [fresh, List.range_succ_eq_map] at h

theorem encodeArguments_independent {args : List Argument}
    (h : ∀ arg ∈ args, arg.FillsWords) (stale stale' : ℕ → Byte) (start : ℕ) :
    encodeArguments stale start args = encodeArguments stale' start args := by
  induction args generalizing start with
  | nil => rfl
  | cons arg args ih =>
      have hpadding := arg.fillsWords_iff.mp (h arg (by simp))
      simp only [encodeArguments, Argument.encode, hpadding, fresh_zero]
      rw [ih (fun a ha => h a (by simp [ha]))]

theorem fillsWords_of_encodeArguments_eq {args : List Argument} {start : ℕ}
    (h : encodeArguments (fun _ => 0) start args =
      encodeArguments (fun _ => (1 : Byte)) start args) :
    ∀ arg ∈ args, arg.FillsWords := by
  induction args generalizing start with
  | nil => simp
  | cons arg args ih =>
      rw [encodeArguments, encodeArguments] at h
      obtain ⟨hhead, htail⟩ := List.append_inj h (by simp)
      rw [Argument.encode, Argument.encode] at hhead
      have hpadding := fresh_inj (List.append_cancel_left hhead)
      intro a ha
      rcases List.mem_cons.mp ha with rfl | ha
      · exact a.fillsWords_iff.mpr hpadding
      · exact ih htail a ha

/-! ## Any number of messages -/

theorem encodeFrames_independent {msgs : List (Wobject × Message)}
    (h : ∀ m ∈ msgs, ∀ arg ∈ m.2.arguments, arg.FillsWords) (stale stale' : ℕ → Byte)
    (start : ℕ) : encodeFrames stale start msgs = encodeFrames stale' start msgs := by
  induction msgs generalizing start with
  | nil => rfl
  | cons m msgs ih =>
      have hargs := encodeArguments_independent (h m (by simp)) stale stale'
      rw [encodeFrames, encodeFrames, Message.encode, Message.encode, hargs,
        ih (fun m hm => h m (by simp [hm]))]

theorem fillsWords_of_encodeFrames_eq {msgs : List (Wobject × Message)} {start : ℕ}
    (h : (encodeFrames (fun _ => 0) start msgs).flatten =
      (encodeFrames (fun _ => (1 : Byte)) start msgs).flatten) :
    ∀ m ∈ msgs, ∀ arg ∈ m.2.arguments, arg.FillsWords := by
  induction msgs generalizing start with
  | nil => simp
  | cons m msgs ih =>
      rw [encodeFrames, encodeFrames, List.flatten_cons, List.flatten_cons] at h
      obtain ⟨hhead, htail⟩ := List.append_inj h (by simp)
      rw [Message.encode, Message.encode] at hhead
      have hargs := fillsWords_of_encodeArguments_eq (List.append_cancel_left hhead)
      intro m' hm'
      rcases List.mem_cons.mp hm' with rfl | hm'
      · exact hargs
      · exact ih htail m' hm'

theorem appendAll_returns {build : Build} {stale : ℕ → Byte} {buf buf' : MessageBuffer}
    {msgs : List (Wobject × Message)} (h : appendAll build stale buf msgs = .ok buf') :
    ∀ m ∈ msgs, m.2.AssertionsPass ∧ build.Addresses m.2.arguments := by
  induction msgs generalizing buf with
  | nil => simp
  | cons m msgs ih =>
      rw [appendAll, List.foldlM_cons] at h
      cases hhead : append build stale buf m.1 m.2 with
      | error e =>
          rw [hhead] at h
          cases h
      | ok buf'' =>
          rw [hhead] at h
          intro m' hm'
          rcases List.mem_cons.mp hm' with rfl | hm'
          · exact (append_returns_iff build stale buf m'.1 m'.2).mp ⟨buf'', hhead⟩
          · exact ih h m' hm'

/-- The released bytes are the messages' alone exactly if no message that `append`
accepts has a string or an array that ends inside a word. -/
theorem storageIndependent_iff (build : Build) (msgs : List (Wobject × Message)) :
    StorageIndependent build msgs ↔
      ((∀ m ∈ msgs, m.2.AssertionsPass ∧ build.Addresses m.2.arguments) →
        ∀ m ∈ msgs, ∀ arg ∈ m.2.arguments, arg.FillsWords) := by
  constructor
  · intro hsame haccepted
    have happend := fun stale => appendAll_eq stale build (fun m hm => (haccepted m hm).1)
      (fun m hm => (haccepted m hm).2) {}
    have hbytes := hsame _ _ _ _ (happend fun _ => 0) (happend fun _ => 1)
    simp only [releaseData, List.nil_append, List.length_nil] at hbytes
    exact fillsWords_of_encodeFrames_eq hbytes
  · intro hfills stale stale' buf buf' hbuf hbuf'
    have haccepted := appendAll_returns hbuf
    have happend := fun stale => appendAll_eq stale build (fun m hm => (haccepted m hm).1)
      (fun m hm => (haccepted m hm).2) {}
    obtain rfl := Except.ok.inj (hbuf.symm.trans (happend stale))
    obtain rfl := Except.ok.inj (hbuf'.symm.trans (happend stale'))
    simp only [releaseData]
    rw [encodeFrames_independent (hfills haccepted) stale stale']

/-- The bytes behind an array of one byte are whatever the storage contained. -/
theorem not_storageIndependent_warray :
    ¬StorageIndependent .unchecked [(1, ⟨0, [.warray [7]]⟩)] := by
  intro hsame
  have hbytes := hsame (fun _ => 0) (fun _ => 1)
    { buff := [1, 0, 0, 0, 0, 0, 16, 0, 1, 0, 0, 0, 7, 0, 0, 0] }
    { buff := [1, 0, 0, 0, 0, 0, 16, 0, 1, 0, 0, 0, 7, 1, 1, 1] } (by decide) (by decide)
  exact absurd hbytes (by decide)

end Waylander
