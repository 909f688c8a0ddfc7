import Fieldwise.Proofs.FreshNames

/-!
# Names for several requests

Names are asked for one after the other, wanted ones and numbered ones in any order. Each search for
a free number tries one after the other and comes to an end (`Names.finds_firstFree`), and what a
request is answered with depends on the names that were taken at first and on the answers before it
(`Names.Answers`). No name is given out twice (`Names.transcript_answers`).
-/

namespace Fieldwise.Names

/-- A name that is asked for: a wanted one, or the next number of a stem. -/
inductive Request where
  | wanted (base : String)
  | numbered (stem : String)
deriving DecidableEq

/-- The name that a request is answered with. -/
def answer (names : Names) : Request → String × Names
  | .wanted base => names.get base
  | .numbered stem => names.next stem

/-- Requests and their answers, one after the other. -/
def transcript (names : Names) : List Request → List (Request × String)
  | [] => []
  | request :: requests =>
    (request, (names.answer request).1) :: transcript (names.answer request).2 requests

variable {names : Names} {taken : List String} {name : Nat → String} {start k m : Nat}
  {history : List (Request × String)} {request : Request} {requests : List Request}

/-! ### The search for a number -/

/-- How numbers are tried, from one on: the search ends at the first that gives a free name, and
goes on after one that does not. -/
inductive Finds (taken : List String) (name : Nat → String) : Nat → Nat → Prop where
  | free {k : Nat} : name k ∉ taken → Finds taken name k k
  | again {start k : Nat} : name start ∈ taken → Finds taken name (start + 1) k →
      Finds taken name start k

/-- A search ends at the least number that gives a free name. -/
theorem finds_iff : Finds taken name start k ↔
    start ≤ k ∧ name k ∉ taken ∧ ∀ j, start ≤ j → j < k → name j ∈ taken := by
  constructor
  · intro h
    induction h with
    | free hk => exact ⟨Nat.le_refl _, hk, fun j hj hlt => absurd hlt (Nat.not_lt.mpr hj)⟩
    | @again start k hstart _ ih =>
      obtain ⟨hle, hk, hbelow⟩ := ih
      refine ⟨Nat.le_of_succ_le hle, hk, fun j hj hlt => ?_⟩
      rcases Nat.eq_or_lt_of_le hj with rfl | hj
      · exact hstart
      · exact hbelow j hj hlt
  · rintro ⟨hle, hk, hbelow⟩
    obtain ⟨n, rfl⟩ := Nat.exists_eq_add_of_le hle
    clear hle
    induction n generalizing start with
    | zero => exact .free hk
    | succ n ih =>
      have hn : start + (n + 1) = start + 1 + n := by omega
      rw [hn] at hk hbelow ⊢
      exact .again (hbelow start (Nat.le_refl _) (by omega))
        (ih hk fun j hj hlt => hbelow j (by omega) hlt)

/-- **The search for a free name comes to an end**, where different numbers give different names. -/
theorem finds_firstFree (names : Names) (h : Function.Injective name) (start : Nat) :
    Finds names.taken name start (names.firstFree name start) := by
  have hfree := names.firstFree_not_mem h start
  rw [firstFree] at hfree ⊢
  cases hfound : (List.range' start (names.taken.length + 1)).find?
      fun k => !names.taken.contains (name k) with
  | some k =>
    rw [hfound] at hfree
    obtain ⟨-, hmem, hbelow⟩ := List.find?_range'_eq_some.mp hfound
    exact finds_iff.mpr ⟨(List.mem_range'_1.mp hmem).1, hfree, by simpa using hbelow⟩
  | none =>
    -- The last number that is tried would be taken, but it is free.
    rw [hfound] at hfree
    have hall : ∀ k ∈ List.range' start (names.taken.length + 1), name k ∈ names.taken := by
      simpa using hfound
    exact absurd (hall _ (List.mem_range'_1.mpr ⟨by simp, by simp⟩)) hfree

/-! ### One request -/

/-- A name that is given out is taken from then on. -/
theorem answer_taken (names : Names) (request : Request) :
    (names.answer request).2.taken = (names.answer request).1 :: names.taken := by
  cases request <;> rfl

theorem counter_next_self (names : Names) (stem : String) : (names.next stem).2.counter stem =
    names.firstFree (fun k => stem ++ toString k) (names.counter stem) + 1 := by
  simp [next, counter]

theorem counter_next_of_ne {stem stem' : String} (h : stem ≠ stem') (names : Names) :
    (names.next stem').2.counter stem = names.counter stem := by
  have hne : (stem == stem') = false := beq_false_of_ne h
  simp [next, counter, List.lookup_cons, hne]

/-- What a request is answered with after others: a wanted name is kept if it is free and else gets
the least number that makes it free; a numbered one gets a number above all those that its stem got
before, and only numbers of names that are taken are left out. -/
def Answers (taken : List String) (history : List (Request × String)) : Request → String → Prop
  | .wanted base, name =>
    (base ∉ taken ++ history.map Prod.snd ∧ name = base) ∨
      (base ∈ taken ++ history.map Prod.snd ∧ ∃ k, name = base ++ "_" ++ toString k ∧
        Finds (taken ++ history.map Prod.snd) (fun j => base ++ "_" ++ toString j) 0 k)
  | .numbered stem, name =>
    ∃ start k, name = stem ++ toString k ∧
      (∀ m, start ≤ m ↔ ∀ j, (Request.numbered stem, stem ++ toString j) ∈ history → j < m) ∧
      Finds (taken ++ history.map Prod.snd) (fun j => stem ++ toString j) start k

/-- The state after some requests: what was taken at first and the answers are taken, and each stem
goes on above its numbers. -/
structure Follows (names : Names) (taken : List String) (history : List (Request × String)) :
    Prop where
  taken : ∀ name, name ∈ names.taken ↔ name ∈ taken ++ history.map Prod.snd
  counter : ∀ stem m, names.counter stem ≤ m ↔
    ∀ j, (Request.numbered stem, stem ++ toString j) ∈ history → j < m

/-- A search sees which names are taken and nothing else. -/
theorem Finds.congr {taken' : List String} (h : Finds taken name start k)
    (ht : ∀ name, name ∈ taken ↔ name ∈ taken') : Finds taken' name start k := by
  rw [finds_iff] at h ⊢
  simpa only [ht] using h

namespace Follows

variable (h : names.Follows taken history)
include h

theorem answers (request : Request) : Answers taken history request (names.answer request).1 := by
  cases request with
  | wanted base =>
    have hfinds := names.finds_firstFree (numbered_injective (base ++ "_")) 0
    by_cases hb : base ∈ names.taken
    · refine .inr ⟨(h.taken base).mp hb, _, ?_, hfinds.congr h.taken⟩
      simp [answer, get, hb]
    · exact .inl ⟨fun ht => hb ((h.taken base).mpr ht), by simp [answer, get, hb]⟩
  | numbered stem =>
    have hfinds := names.finds_firstFree (numbered_injective stem) (names.counter stem)
    exact ⟨_, _, rfl, h.counter stem, hfinds.congr h.taken⟩

theorem taken_answer (request : Request) : ∀ name, name ∈ (names.answer request).2.taken ↔
    name ∈ taken ++ (history ++ [(request, (names.answer request).1)]).map Prod.snd := by
  intro name
  rw [answer_taken, List.mem_cons, h.taken]
  simp only [List.map_append, List.map_cons, List.map_nil, List.mem_append, List.mem_singleton]
  tauto

theorem counter_answer (request : Request) (stem : String) (m : Nat) :
    (names.answer request).2.counter stem ≤ m ↔ ∀ j, (Request.numbered stem, stem ++ toString j) ∈
      history ++ [(request, (names.answer request).1)] → j < m := by
  have hold := h.counter stem m
  cases request with
  | wanted base =>
    have hcounter : (names.answer (.wanted base)).2.counter stem = names.counter stem := rfl
    simpa [hcounter] using hold
  | numbered stem' =>
    by_cases hs : stem = stem'
    · subst hs
      obtain ⟨k, hk⟩ :
          ∃ k, names.firstFree (fun k => stem ++ toString k) (names.counter stem) = k := ⟨_, rfl⟩
      have hle : names.counter stem ≤ k :=
        hk ▸ (finds_iff.mp (names.finds_firstFree (numbered_injective stem) _)).1
      have hname : (names.next stem).1 = stem ++ toString k := by rw [← hk]; rfl
      have hcounter : (names.next stem).2.counter stem = k + 1 := by rw [counter_next_self, hk]
      have hnumber : ∀ j, stem ++ toString j = stem ++ toString k ↔ j = k :=
        fun j => (numbered_injective stem).eq_iff
      simp only [Names.answer, hcounter, hname, List.mem_append, List.mem_singleton, Prod.mk.injEq,
        true_and, hnumber]
      constructor
      · rintro hkm j (hj | rfl)
        · exact hold.mp (by omega) j hj
        · exact hkm
      · exact fun hall => hall k (.inr rfl)
    · rw [Names.answer, counter_next_of_ne hs, hold]
      simp [hs]

/-- **What follows some requests still does after one more.** -/
theorem answer (request : Request) :
    (names.answer request).2.Follows taken (history ++ [(request, (names.answer request).1)]) :=
  ⟨h.taken_answer request, h.counter_answer request⟩

/-- **Every request is answered as it has to be after those before it.** -/
theorem transcript {before after : List (Request × String)} {name : String}
    (ht : names.transcript requests = before ++ (request, name) :: after) :
    Answers taken (history ++ before) request name := by
  induction requests generalizing names history before with
  | nil => simp [Names.transcript] at ht
  | cons r rs ih =>
    rw [Names.transcript] at ht
    cases before with
    | nil =>
      obtain ⟨hhead, -⟩ := List.cons.inj ht
      cases hhead
      simpa using h.answers request
    | cons entry before =>
      obtain ⟨hentry, htail⟩ := List.cons.inj ht
      simpa [← hentry] using ih (h.answer r) htail

end Follows

/-! ### All requests -/

theorem answer_not_mem (names : Names) (request : Request) :
    (names.answer request).1 ∉ names.taken := by
  cases request with
  | wanted base => exact names.get_not_mem base
  | numbered stem => exact names.next_not_mem stem

/-- The answers to several requests are different names that were not taken. -/
theorem transcript_nodup (names : Names) (requests : List Request) :
    ((names.transcript requests).map Prod.snd).Nodup ∧
      ∀ name ∈ (names.transcript requests).map Prod.snd, name ∉ names.taken := by
  induction requests generalizing names with
  | nil => simp [transcript]
  | cons r rs ih =>
    obtain ⟨hnodup, hfree⟩ := ih (names.answer r).2
    simp only [answer_taken, List.mem_cons, not_or] at hfree
    rw [transcript, List.map_cons, List.nodup_cons, List.forall_mem_cons]
    exact ⟨⟨fun hm => (hfree _ hm).1 rfl, hnodup⟩, names.answer_not_mem r,
      fun name hm => (hfree name hm).2⟩

theorem map_fst_transcript (names : Names) (requests : List Request) :
    (names.transcript requests).map Prod.fst = requests := by
  induction requests generalizing names with
  | nil => rfl
  | cons r rs ih => rw [transcript, List.map_cons, ih]

/-- **Names that are given out are fresh.** From any names that are taken at first, every one of
several requests is answered, by different names of which none was taken, and each by the name that
it has to get after those before it. -/
theorem transcript_answers (taken : List String) (requests : List Request) :
    (transcript { taken } requests).map Prod.fst = requests ∧
      ((transcript { taken } requests).map Prod.snd).Nodup ∧
      (∀ name ∈ (transcript { taken } requests).map Prod.snd, name ∉ taken) ∧
      ∀ before request name after,
        transcript { taken } requests = before ++ (request, name) :: after →
        Answers taken before request name := by
  have hstart : Follows { taken } taken [] := ⟨by simp, by simp [counter]⟩
  obtain ⟨hnodup, hfree⟩ := transcript_nodup { taken } requests
  exact ⟨map_fst_transcript _ _, hnodup, hfree, fun _ _ _ _ ht => hstart.transcript ht⟩

/-- A wanted name and the numbers of a stem that compete for names: a number that a wanted name got
first is left out. -/
theorem transcript_answers_competing :
    transcript { taken := ["x_0"] } [.wanted "x_0", .numbered "x_", .wanted "x", .wanted "x",
        .numbered "x_"] =
      [(.wanted "x_0", "x_0_0"), (.numbered "x_", "x_1"), (.wanted "x", "x"),
        (.wanted "x", "x_2")] ++ (.numbered "x_", "x_3") :: [] ∧
      Answers ["x_0"] [(.wanted "x_0", "x_0_0"), (.numbered "x_", "x_1"), (.wanted "x", "x"),
        (.wanted "x", "x_2")] (.numbered "x_") "x_3" := by
  have hrun : transcript { taken := ["x_0"] } [.wanted "x_0", .numbered "x_", .wanted "x",
      .wanted "x", .numbered "x_"] = [(.wanted "x_0", "x_0_0"), (.numbered "x_", "x_1"),
        (.wanted "x", "x"), (.wanted "x", "x_2")] ++ (.numbered "x_", "x_3") :: [] := by decide
  exact ⟨hrun, (transcript_answers ["x_0"] _).2.2.2 _ _ _ _ hrun⟩

end Fieldwise.Names
