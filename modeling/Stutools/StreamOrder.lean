-- The order a stream keeps when writes are read back and nothing races: no
-- two requests in flight conflict, and no write runs over a read-back that
-- is still owed. Both calls keep the invariant, in any completion order.
import Stutools.StreamLists

open memory

namespace stutools

/-! ## Requests that may be in flight together -/

def Apart (a b : Request) : Prop := conflict a b = false

instance (a b : Request) : Decidable (Apart a b) := inferInstanceAs (Decidable (_ = _))

theorem Apart.symm {a b : Request} (h : Apart a b) : Apart b a := by
  unfold Apart at *
  rwa [conflict_comm]

theorem apart_congr {a a' b b' : Request} (ha : a.io = a'.io) (hb : b.io = b'.io) :
    Apart a b ↔ Apart a' b' := by
  unfold Apart
  rw [conflict_congr ha hb]

/-- Only what `same_io` compares decides whether a list of requests is apart. -/
theorem apart_of_perm_io {l l' : List Request}
    (hp : (l.map Request.io).Perm (l'.map Request.io)) (h : l.Pairwise Apart) :
    l'.Pairwise Apart := by
  let R : Nat × Nat × Bool × Bool → Nat × Nat × Bool × Bool → Prop := fun x y =>
    ∀ a b : Request, a.io = x → b.io = y → Apart a b
  have hR : ∀ m : List Request, (m.map Request.io).Pairwise R ↔ m.Pairwise Apart := by
    intro m
    rw [List.pairwise_map]
    refine ⟨fun hm => hm.imp fun {a b} hab => hab a b rfl rfl, fun hm => hm.imp fun {a b} hab => ?_⟩
    intro a' b' ha hb
    exact (apart_congr ha hb).mpr hab
  rw [← hR] at h ⊢
  exact hp.pairwise h fun {x y} hxy a b ha hb => (hxy b a hb ha).symm

/-! ## The invariant -/

/-- `out` lists the requests handed out and not completed. -/
structure Ordered (s : Stream) (out : List Request) : Prop where
  shaped : s.Shaped
  in_flight : (s.in_flight.map Request.io).Perm (out.map Request.io)
  outstanding : s.outstanding = out.length
  apart : s.in_flight.Pairwise Apart
  clear : ∀ d ∈ s.owed, ∀ f ∈ s.in_flight, Apart d f

/-- The stream reads back each write, and only after the write completed. -/
structure Stream.ReadsBack (s : Stream) : Prop where
  read_back : s.read_back = true
  race : s.race = false

theorem Stream.ReadsBack.of_frame {s t : Stream} (h : s.ReadsBack) (hf : Stream.Frame s t) :
    t.ReadsBack :=
  ⟨hf.read_back.trans h.read_back, hf.race.trans h.race⟩

namespace Ordered

variable {s t u v : Stream} {env : Env} {out : List Request}

/-- Requests may move between the plan, the held ones and the owed ones. -/
theorem of_owed_perm (h : Ordered s out) (ht : t.Shaped) (h1 : t.in_flight = s.in_flight)
    (h2 : t.outstanding = s.outstanding) (howed : t.owed.Perm s.owed) : Ordered t out := by
  obtain ⟨_, g1, g2, g3, g4⟩ := h
  refine ⟨ht, h1 ▸ g1, h2 ▸ g2, h1 ▸ g3, fun d hd f hf => ?_⟩
  exact g4 d (howed.mem_iff.mp hd) f (h1 ▸ hf)

/-- Without races, only an overlap with a write Stream.gates. -/
theorem gates_eq (hr : s.race = false) (a b : Request) : s.gates a b = conflict a b := by
  simp [Stream.gates, hr]

theorem of_not_blocked {q : Request} (hs : v.ReadsBack) (hb : v.blocked q = false) :
    (∀ f ∈ v.in_flight, Apart q f) ∧ ∀ d ∈ v.due, Apart q d := by
  simp only [Stream.blocked, Stream.overlaps, hs.read_back, Bool.true_and, Bool.or_eq_false_iff,
    List.any_eq_false, gates_eq hs.race, Bool.not_eq_true] at hb
  exact ⟨hb.2.1, hb.2.2⟩

theorem hand_out {q : Request} (h : Ordered (v.hold q) out) (hs : v.ReadsBack)
    (hb : v.blocked q = false) : Ordered (v.hand_out q) (q :: out) := by
  obtain ⟨g1, g2, g3, g4, g5⟩ := h
  obtain ⟨hf, hd⟩ := of_not_blocked hs hb
  have hin : (v.hand_out q).in_flight = v.in_flight ++ [q] := by simp [Stream.hand_out, hs.read_back]
  have howed : (v.hold q).owed.Perm ([q].filter is_read_back ++ (v.hand_out q).owed) := by
    simpa [Stream.raced, hs.race] using Stream.hand_out_owed v q
  refine ⟨g1.hand_out, ?_, ?_, ?_, ?_⟩
  · rw [hin, List.map_append, List.map_cons]
    exact (List.perm_append_singleton _ _).trans (g2.cons q.io)
  · have houts : v.outstanding = out.length := g3
    simp [Stream.hand_out, houts]
  · rw [hin, List.pairwise_append]
    exact ⟨g4, List.pairwise_singleton _ _, fun f h1 g h2 =>
      (List.mem_singleton.mp h2) ▸ (hf f h1).symm⟩
  · intro d h1 f h2
    rw [hin, List.mem_append, List.mem_singleton] at h2
    rcases h2 with h2 | rfl
    · exact g5 d (howed.mem_iff.mpr (List.mem_append_right _ h1)) f h2
    · -- a write meets only read-backs that are due, and two reads never conflict
      rw [Stream.owed, List.mem_append, List.mem_filter] at h1
      cases hw : f.write with
      | true =>
        have hnil : v.held = [] := g1.held.of_write hw
        have h3 : d ∈ v.due := by simpa [Stream.hand_out, hs.race, hnil] using h1
        exact (hd d h3).symm
      | false =>
        have hrb : is_read_back d = true := by
          rcases h1 with h1 | h1
          · exact g1.hand_out.due d h1
          · exact h1.2
        exact conflict_reads ((is_read_back_iff d).mp hrb).2 hw

/-- One call of `source`: what it hands out joins the requests in flight. -/
theorem source (h : Ordered s out) (hs : s.ReadsBack) {n : Next} (hn : s.source env = (n, t)) :
    Ordered t (n.handed ++ out) := by
  rcases Stream.source_cases hn with ⟨hc, hnext⟩ | ⟨r, u, q, v, hc, ho, hb⟩
  · obtain ⟨h1, h2, _⟩ := Stream.candidate_sent hc
    have ht : Ordered t out := h.of_owed_perm (h.shaped.no_candidate hc) h1 h2
      (Stream.no_candidate_owed hc ▸ List.Perm.refl _)
    rw [hnext]
    split_ifs <;> exact ht
  · obtain ⟨h1, h2, _⟩ := Stream.candidate_sent hc
    obtain ⟨h3, h4, _⟩ := Stream.owed_first_sent ho
    have hu := h.shaped.candidate hc
    have hq : Ordered (v.hold q) out := h.of_owed_perm (hu.owed_first ho) (h3.trans h1)
      (h4.trans h2) ((Stream.owed_first_owed hu ho).trans (Stream.candidate_owed h.shaped hc))
    have hv := hs.of_frame ((Stream.candidate_frame hc).trans (Stream.owed_first_frame ho))
    rcases hb with ⟨_, rfl, rfl⟩ | ⟨hb, rfl, rfl⟩
    · exact hq
    · exact hq.hand_out hv hb

/-- One completion, of any request that is in flight. -/
theorem finish (h : Ordered s out) (hs : s.ReadsBack) {buffer : List UInt8} {r : Request}
    {rest : List Request} (hf : s.finish env buffer r = some t)
    (hout : (out.map Request.io).Perm (r.io :: rest.map Request.io)) : Ordered t rest := by
  obtain ⟨g1, g2, g3, g4, g5⟩ := h
  have hfin := Stream.finish.spec hf
  obtain ⟨f, hio, hperm⟩ := hfin.in_flight hs.read_back
  have hpair : (f :: t.in_flight).Pairwise Apart :=
    hperm.pairwise g4 fun {a b} hab => Apart.symm hab
  rw [List.pairwise_cons] at hpair
  refine ⟨g1.finish hf, ?_, ?_, hpair.2, ?_⟩
  · have h1 : (f.io :: t.in_flight.map Request.io).Perm (r.io :: rest.map Request.io) :=
      (hperm.symm.map Request.io).trans (g2.trans hout)
    rw [hio] at h1
    exact h1.cons_inv
  · have hlen := hout.length_eq
    simp only [List.length_map, List.length_cons] at hlen
    rw [hfin.outstanding, g3]
    omega
  · intro d hd g hg
    have hg' : g ∈ s.in_flight := hperm.mem_iff.mpr (List.mem_cons_of_mem f hg)
    rw [(Stream.finish_owed hf).mem_iff, List.mem_append] at hd
    rcases hd with hd | hd
    · exact g5 d hd g hg'
    · split_ifs at hd with hw
      · rw [List.mem_singleton.mp hd]
        have hrg : Apart r g := (apart_congr hio rfl).mp (hpair.1 g hg)
        simp only [Bool.and_eq_true] at hw
        exact conflict_read_back_of hw.1.1 hrg
      · cases hd

/-- The owed read-backs after one call: the one that was handed out is gone. -/
theorem source_owed (h : Ordered s out) (hs : s.ReadsBack) {n : Next}
    (hn : s.source env = (n, t)) : s.owed.Perm (n.handed.filter is_read_back ++ t.owed) := by
  simpa [Stream.raced, hs.race] using Stream.source_owed h.shaped hn

/-- A write is handed out only when no read-back that overlaps it is owed. -/
theorem write_clear (h : Ordered s out) (hs : s.ReadsBack) {w : Request}
    (hn : s.source env = (.request w, t)) (hw : w.write = true) :
    ∀ d ∈ s.due ++ s.held ++ s.in_flight, is_read_back d = true → Apart w d := by
  have howed := h.source_owed hs hn
  have ht := h.source hs hn
  have hin : t.in_flight = s.in_flight ++ [w] := by
    simpa [hs.read_back, Next.handed] using (Stream.source_sent hn).1
  have hmem : w ∈ t.in_flight := by simp [hin]
  intro d hd hrb
  rw [List.mem_append] at hd
  rcases hd with hd | hd
  · have hs' : d ∈ s.owed := by
      rw [Stream.owed, List.mem_append, List.mem_filter]
      rcases List.mem_append.mp hd with h1 | h1
      · exact .inl h1
      · exact .inr ⟨h1, hrb⟩
    rw [howed.mem_iff] at hs'
    simp only [Next.handed, List.filter_cons, not_read_back_of_write hw, Bool.false_eq_true,
      if_false, List.filter_nil, List.nil_append] at hs'
    exact (ht.clear d hs' w hmem).symm
  · have hpair := ht.apart
    rw [hin, List.pairwise_append] at hpair
    exact (hpair.2.2 d hd w (List.mem_singleton.mpr rfl)).symm

end Ordered

end stutools
