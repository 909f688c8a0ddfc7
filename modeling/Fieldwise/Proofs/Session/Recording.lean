import Fieldwise.Proofs.Session.Decomposing
import Fieldwise.Proofs.Session.Growing

/-!
# Names that are recorded

Once a binding was recorded as decomposed, one of its name stays recorded
(`Engine.Remembers`), whatever else is decomposed. What is decomposed is recorded
(`Session.Within.records_decomposeBinding`).
-/

namespace Fieldwise

namespace Engine

variable {α : Type}

/-- Names that were recorded before the computation are recorded after it. -/
def Remembers (e : Engine α) : Prop := ∀ s : Session, s.NamesIn (s.run e).2

theorem Grows.remembers {e : Engine α} (h : Grows e) : Remembers e := fun s => (h s).names

end Engine

namespace Session

/-- If all names that are recorded after a computation are among some, so are those before it. -/
theorem names_mem_of_run {α : Type} {e : Engine α} (he : e.Remembers) {N : List String}
    {s t : Session} {r : Except Failure α} (hr : s.run e = (r, t))
    (hN : ∀ d ∈ t.decomposed, d.binding.name ∈ N) : ∀ d ∈ s.decomposed, d.binding.name ∈ N := by
  intro d hd
  obtain ⟨d', hd', hn⟩ := he s d hd
  rw [hr] at hd'
  exact hn ▸ hN d' hd'

variable [Discipline] {u : Subject} {s t : Session} {b : Binding}

theorem Settles.names {α : Type} {e : Engine α} (hl : Discipline.IsLax) (he : e.Remembers) :
    s.Settles e fun _ t => s.NamesIn t := by
  unfold Settles
  have hv := he s
  generalize s.run e = p at hv ⊢
  obtain ⟨_ | x, v⟩ := p
  · exact fun hs => absurd hs hl.1
  · exact hv

/-- What is decomposed is recorded under its name. -/
theorem Declares.exists_name {b' : Binding} (h : Declares u s b b' t) (hb : s.document.Knows b) :
    ∃ e ∈ t.decomposed, e.binding.name = b.name := by
  obtain ⟨e, he, heb⟩ := h.recorded
  exact ⟨e, he, by rw [heb, h.refreshed, hb.name_refresh]⟩

/-- **The name of a binding that is decomposed is recorded.** -/
theorem Within.records_decomposeBinding (hl : Discipline.IsLax) (h : Within u s)
    (hb : s.document.Knows b) (hu : u.Covers b)
    (ha : s.document.attached b.decl) : s.Settles (Engine.decomposeBinding b) fun _ t =>
      ∃ e ∈ t.decomposed, e.binding.name = b.name := by
  have hrest : ∀ {e : Engine Unit} {b' : Binding} {t : Session}, e.Remembers → Declares u s b b' t →
      t.Settles e fun _ v => ∃ e ∈ v.decomposed, e.binding.name = b.name := by
    intro e b' t he ht
    obtain ⟨r, hr, hn⟩ := ht.exists_name hb
    refine (Settles.names hl he).mono fun _ v hv => ?_
    obtain ⟨r', hr', hn'⟩ := hv r hr
    exact ⟨r', hr', hn'.trans hn⟩
  unfold Engine.decomposeBinding
  split
  · rename_i hp
    rw [Engine.decomposeParam_eq]
    exact (h.settles_declareParam hb hu ha hp).bind fun b' t ht => hrest
      ((Engine.Grows.rewrite _).bind fun _ => .updatePrototypes _).remembers ht
  · rename_i hp
    rw [Engine.decomposeVariable_eq]
    exact (h.settles_declareVariable hb hu ha (by simpa using hp)).bind fun b' t ht => hrest
      ((Engine.Grows.rewrite _).bind fun _ => (Engine.Grows.refresh _).bind fun _ =>
        .removeDeclaration _).remembers ht

end Session

end Fieldwise
