-- The order a stream keeps when a read-back may race its write. Over the list
-- of requests handed out, a write is followed by its own read-back before
-- anything else writes or checks its extent.
import Stutools.StreamOrder

open memory

namespace stutools

/-! ## Requests by their place in the order -/

/-- A read that checks nothing. -/
def Plain (r : Request) : Prop := r.write = false ∧ r.verify = false

/-- The extents of two requests do not overlap. -/
def Separate (a b : Request) : Prop := ¬ Overlap a.offset a.len b.offset b.len

theorem Separate.symm {a b : Request} (h : Separate a b) : Separate b a := by
  unfold Separate at h ⊢
  rwa [overlap_comm]

theorem separate_of_apart {w r : Request} (hw : w.write = true) (h : Apart w r) : Separate w r :=
  not_overlap_of_write hw h

theorem apart_of_separate {a b : Request} (h : Separate a b) : Apart a b := by
  unfold Apart
  rw [Bool.eq_false_iff]
  intro hc
  exact h ((conflict_iff a b).mp hc).2

/-- In the order `l`, the request at `n` is the read-back issued for the write at
`m`: between the two nothing wrote or checked the extent, and every earlier write
over it had its own read-back issued before this write. -/
structure OwnReadBack (l : List Request) (m n : Nat) : Prop where
  after : m < n
  pair : ∃ w, l[m]? = some w ∧ w.write = true ∧ l[n]? = some (read_back_of w)
  between : ∀ k w r, m < k → k < n → l[m]? = some w → l[k]? = some r → Plain r ∨ Separate w r
  earlier : ∀ k w r, k < m → l[m]? = some w → l[k]? = some r → r.write = true →
    ¬ Separate r w → ∃ j, k < j ∧ j < m ∧ l[j]? = some (read_back_of r)

/-- The read-back `d` is still owed to the write at `m`: nothing wrote or checked
the extent since. -/
structure Owes (l : List Request) (m : Nat) (d : Request) : Prop where
  write : ∃ w, l[m]? = some w ∧ w.write = true ∧ d = read_back_of w
  since : ∀ k r, m < k → l[k]? = some r → Plain r ∨ Separate d r

variable {l : List Request} {q : Request}

theorem getElem?_snoc {k : Nat} {r : Request} :
    (l ++ [q])[k]? = some r ↔ l[k]? = some r ∨ k = l.length ∧ r = q := by
  constructor
  · intro h
    rcases Nat.lt_trichotomy k l.length with hlt | heq | hgt
    · rw [List.getElem?_append_left hlt] at h
      exact .inl h
    · rw [heq, List.getElem?_concat_length] at h
      exact .inr ⟨heq, (Option.some.inj h).symm⟩
    · rw [List.getElem?_eq_none (by rw [List.length_append]; exact hgt)] at h
      cases h
  · rintro (h | ⟨rfl, rfl⟩)
    · rw [List.getElem?_append_left (List.getElem?_eq_some_iff.mp h).1]
      exact h
    · exact List.getElem?_concat_length

theorem lt_of_getElem? {k : Nat} {r : Request} (h : l[k]? = some r) : k < l.length :=
  (List.getElem?_eq_some_iff.mp h).1

theorem Owes.snoc {m : Nat} {d : Request} (h : Owes l m d) (hq : Plain q ∨ Separate d q) :
    Owes (l ++ [q]) m d := by
  obtain ⟨⟨w, hw, hwrite, hd⟩, hsince⟩ := h
  refine ⟨⟨w, getElem?_snoc.mpr (.inl hw), hwrite, hd⟩, fun k r hk hr => ?_⟩
  rcases getElem?_snoc.mp hr with hr | ⟨-, rfl⟩
  · exact hsince k r hk hr
  · exact hq

theorem OwnReadBack.snoc {m n : Nat} (h : OwnReadBack l m n) : OwnReadBack (l ++ [q]) m n := by
  obtain ⟨hafter, ⟨w, hm, hw, hn⟩, hbetween, hearlier⟩ := h
  have hlt := lt_of_getElem? hn
  have hold : ∀ {k r}, k ≤ n → (l ++ [q])[k]? = some r → l[k]? = some r := by
    intro k r hk hr
    rcases getElem?_snoc.mp hr with hr | ⟨rfl, -⟩
    · exact hr
    · omega
  refine ⟨hafter, ⟨w, getElem?_snoc.mpr (.inl hm), hw, getElem?_snoc.mpr (.inl hn)⟩, ?_, ?_⟩
  · intro k w' r hk1 hk2 hw' hr
    exact hbetween k w' r hk1 hk2 (hold (by omega) hw') (hold (by omega) hr)
  · intro k w' r hk hw' hr hwrite hover
    obtain ⟨j, hj1, hj2, hj⟩ := hearlier k w' r hk (hold (by omega) hw') (hold (by omega) hr)
      hwrite hover
    exact ⟨j, hj1, hj2, getElem?_snoc.mpr (.inl hj)⟩

/-! ## The record of a racing stream -/

/-- Over the order `l` with the requests at `out` still out: every owed read-back
has the write it is owed to, every write has its read-back owed or issued, and
two requests that are out together and conflict are a write and its own read-back. -/
structure History (l : List Request) (owed : List Request) (out : List Nat) : Prop where
  owner : ∀ d ∈ owed, ∃ m, Owes l m d
  separate : owed.Pairwise Separate
  owes : ∀ (m : Nat) (w : Request), l[m]? = some w → w.write = true →
    read_back_of w ∈ owed ∨ ∃ j, m < j ∧ l[j]? = some (read_back_of w)
  clear : ∀ d ∈ owed, ∀ i ∈ out, ∀ f, l[i]? = some f → ¬ Apart d f → Owes l i d
  settled : ∀ (m : Nat) (w : Request), l[m]? = some w → w.write = true → ∀ k r, k < m → l[k]? = some r →
    r.write = true → ¬ Separate r w → ∃ j, k < j ∧ j < m ∧ l[j]? = some (read_back_of r)
  pairs : ∀ i ∈ out, ∀ j ∈ out, i < j → ∀ a b, l[i]? = some a → l[j]? = some b →
    ¬ Apart a b → OwnReadBack l i j

namespace History

variable {owed owed' : List Request} {out out' : List Nat}

theorem nothing : History [] [] [] :=
  ⟨nofun, List.Pairwise.nil, nofun, nofun, nofun, nofun⟩

theorem perm (h : History l owed out) (howed : owed'.Perm owed) (hout : ∀ i ∈ out', i ∈ out) :
    History l owed' out' := by
  refine ⟨fun d hd => h.owner d (howed.subset hd),
    howed.symm.pairwise h.separate fun hs => hs.symm, fun m w hm hw => ?_,
    fun d hd i hi => h.clear d (howed.subset hd) i (hout i hi), h.settled,
    fun i hi j hj => h.pairs i (hout i hi) j (hout j hj)⟩
  rcases h.owes m w hm hw with howes | hissued
  · exact .inl (howed.symm.subset howes)
  · exact .inr hissued

/-- The places of the requests that are out, once another one is handed out. -/
theorem mem_out {i : Nat} {f : Request} (hi : i ∈ l.length :: out)
    (hf : (l ++ [q])[i]? = some f) : i ∈ out ∧ l[i]? = some f ∨ i = l.length ∧ f = q := by
  rcases getElem?_snoc.mp hf with hold | hnew
  · rcases List.mem_cons.mp hi with rfl | hi
    · exact absurd (lt_of_getElem? hold) (Nat.lt_irrefl _)
    · exact .inl ⟨hi, hold⟩
  · exact .inr hnew

theorem pairs_snoc (h : History l owed out)
    (hnew : ∀ i ∈ out, ∀ f, l[i]? = some f → ¬ Apart f q → OwnReadBack (l ++ [q]) i l.length) :
    ∀ i ∈ l.length :: out, ∀ j ∈ l.length :: out, i < j → ∀ a b, (l ++ [q])[i]? = some a →
      (l ++ [q])[j]? = some b → ¬ Apart a b → OwnReadBack (l ++ [q]) i j := by
  intro i hi j hj hij a b ha hb hconflict
  rcases mem_out hj hb with ⟨hj, hb⟩ | ⟨rfl, rfl⟩
  · rcases mem_out hi ha with ⟨hi, ha⟩ | ⟨rfl, -⟩
    · exact (h.pairs i hi j hj hij a b ha hb hconflict).snoc
    · exact absurd (lt_of_getElem? hb) (by omega)
  · rcases mem_out hi ha with ⟨hi, ha⟩ | ⟨rfl, -⟩
    · exact hnew i hi a ha hconflict
    · exact absurd hij (Nat.lt_irrefl _)

theorem settled_snoc (h : History l owed out)
    (hnew : q.write = true → ∀ k r, l[k]? = some r → r.write = true → ¬ Separate r q →
      ∃ j, k < j ∧ j < l.length ∧ l[j]? = some (read_back_of r)) :
    ∀ (m : Nat) (w : Request), (l ++ [q])[m]? = some w → w.write = true → ∀ k r, k < m →
      (l ++ [q])[k]? = some r → r.write = true → ¬ Separate r w →
      ∃ j, k < j ∧ j < m ∧ (l ++ [q])[j]? = some (read_back_of r) := by
  intro m w hm hw k r hk hr hwrite hover
  have hlt : k < l.length := by
    rcases getElem?_snoc.mp hm with hm | ⟨rfl, -⟩
    · exact hk.trans (lt_of_getElem? hm)
    · exact hk
  have hold : l[k]? = some r := by
    rcases getElem?_snoc.mp hr with hold | ⟨rfl, -⟩
    · exact hold
    · exact absurd hlt (Nat.lt_irrefl _)
  rcases getElem?_snoc.mp hm with hm | ⟨rfl, rfl⟩
  · obtain ⟨j, hj1, hj2, hj⟩ := h.settled m w hm hw k r hk hold hwrite hover
    exact ⟨j, hj1, hj2, getElem?_snoc.mpr (.inl hj)⟩
  · obtain ⟨j, hj1, hj2, hj⟩ := hnew hw k r hold hwrite hover
    exact ⟨j, hj1, hj2, getElem?_snoc.mpr (.inl hj)⟩

/-- A write that meets no request that is out and no owed read-back. -/
theorem write (h : History l owed out) (hw : q.write = true)
    (hout : ∀ i ∈ out, ∀ f, l[i]? = some f → Apart q f) (howed : ∀ d ∈ owed, Apart q d) :
    History (l ++ [q]) (read_back_of q :: owed) (l.length :: out) := by
  have hseparate : ∀ d ∈ owed, Separate d q := fun d hd =>
    (separate_of_apart hw (howed d hd)).symm
  refine ⟨?_, ?_, ?_, ?_, h.settled_snoc fun _ k r hr hwrite hover => ?_,
    h.pairs_snoc fun i hi f hf hconflict => absurd (hout i hi f hf).symm hconflict⟩
  · intro d hd
    rcases List.mem_cons.mp hd with rfl | hd
    · refine ⟨l.length, ⟨q, getElem?_snoc.mpr (.inr ⟨rfl, rfl⟩), hw, rfl⟩, fun k r hk hr => ?_⟩
      rcases getElem?_snoc.mp hr with hr | ⟨rfl, -⟩
      · exact absurd (lt_of_getElem? hr) (by omega)
      · exact absurd hk (Nat.lt_irrefl _)
    · obtain ⟨m, hm⟩ := h.owner d hd
      exact ⟨m, hm.snoc (.inr (hseparate d hd))⟩
  · exact List.pairwise_cons.mpr ⟨fun d hd => (hseparate d hd).symm, h.separate⟩
  · intro m w hm hwrite
    rcases getElem?_snoc.mp hm with hm | ⟨-, rfl⟩
    · rcases h.owes m w hm hwrite with howes | ⟨j, hj, hissued⟩
      · exact .inl (List.mem_cons_of_mem _ howes)
      · exact .inr ⟨j, hj, getElem?_snoc.mpr (.inl hissued)⟩
    · exact .inl List.mem_cons_self
  · intro d hd i hi f hf hconflict
    rcases List.mem_cons.mp hd with rfl | hold
    · rcases mem_out hi hf with ⟨hi, hf⟩ | ⟨rfl, rfl⟩
      · exact absurd (conflict_read_back_of hw (hout i hi f hf)) hconflict
      · refine ⟨⟨f, hf, hw, rfl⟩, fun k r hk hr => ?_⟩
        rcases getElem?_snoc.mp hr with hr | ⟨rfl, -⟩
        · exact absurd (lt_of_getElem? hr) (by omega)
        · exact absurd hk (Nat.lt_irrefl _)
    · rcases mem_out hi hf with ⟨hi, hf⟩ | ⟨rfl, rfl⟩
      · exact (h.clear d hold i hi f hf hconflict).snoc (.inr (hseparate d hold))
      · exact absurd (howed d hold).symm hconflict
  · rcases h.owes k r hr hwrite with howes | ⟨j, hj, hissued⟩
    · exact absurd (hseparate _ howes) hover
    · exact ⟨j, hj, lt_of_getElem? hissued, hissued⟩

/-- An owed read-back may be handed out at any time: what it conflicts with is the
write it is owed to. -/
theorem read_back (h : History l (q :: owed) out) (hq : is_read_back q = true) :
    History (l ++ [q]) owed (l.length :: out) := by
  obtain ⟨hfirst, hrest⟩ := List.pairwise_cons.mp h.separate
  have hread := ((is_read_back_iff q).mp hq).2
  have hseparate : ∀ d ∈ owed, Separate d q := fun d hd => (hfirst d hd).symm
  refine ⟨?_, hrest, ?_, ?_, h.settled_snoc fun hw => ?_, h.pairs_snoc fun i hi f hf hc => ?_⟩
  · intro d hd
    obtain ⟨m, hm⟩ := h.owner d (List.mem_cons_of_mem _ hd)
    exact ⟨m, hm.snoc (.inr (hseparate d hd))⟩
  · intro m w hm hwrite
    rcases getElem?_snoc.mp hm with hm | ⟨-, rfl⟩
    · rcases h.owes m w hm hwrite with howes | ⟨j, hj, hissued⟩
      · rcases List.mem_cons.mp howes with heq | howes
        · exact .inr ⟨l.length, lt_of_getElem? hm, getElem?_snoc.mpr (.inr ⟨rfl, heq⟩)⟩
        · exact .inl howes
      · exact .inr ⟨j, hj, getElem?_snoc.mpr (.inl hissued)⟩
    · rw [hread] at hwrite
      cases hwrite
  · intro d hd i hi f hf hconflict
    rcases mem_out hi hf with ⟨hi, hf⟩ | ⟨rfl, rfl⟩
    · exact (h.clear d (List.mem_cons_of_mem _ hd) i hi f hf hconflict).snoc
        (.inr (hseparate d hd))
    · exact absurd (apart_of_separate (hseparate d hd)) hconflict
  · rw [hread] at hw
    cases hw
  · obtain ⟨⟨w, hw, hwrite, rfl⟩, hsince⟩ := h.clear q List.mem_cons_self i hi f hf
      fun ha => hc ha.symm
    have hlt := lt_of_getElem? hw
    refine ⟨hlt, ⟨w, getElem?_snoc.mpr (.inl hw), hwrite, getElem?_snoc.mpr (.inr ⟨rfl, rfl⟩)⟩,
      fun k w' r hk1 hk2 hw' hr => ?_, fun k w' r hk hw' hr hr' hover => ?_⟩
    · rcases getElem?_snoc.mp hw' with hw' | ⟨heq, -⟩
      · obtain rfl := Option.some.inj (hw.symm.trans hw')
        rcases getElem?_snoc.mp hr with hr | ⟨heq, -⟩
        · exact hsince k r hk1 hr
        · omega
      · omega
    · rcases getElem?_snoc.mp hw' with hw' | ⟨heq, -⟩
      · obtain rfl := Option.some.inj (hw.symm.trans hw')
        rcases getElem?_snoc.mp hr with hr | ⟨heq, -⟩
        · obtain ⟨j, hj1, hj2, hj⟩ := h.settled i w hw hwrite k r hk hr hr' hover
          exact ⟨j, hj1, hj2, getElem?_snoc.mpr (.inl hj)⟩
        · omega
      · omega

/-- A read that checks nothing and meets no write that is out. -/
theorem plain (h : History l owed out) (hq : Plain q)
    (hout : ∀ i ∈ out, ∀ f, l[i]? = some f → Apart q f) (howed : ∀ d ∈ owed, is_read_back d = true) :
    History (l ++ [q]) owed (l.length :: out) := by
  refine ⟨?_, h.separate, ?_, ?_, h.settled_snoc fun hw => ?_,
    h.pairs_snoc fun i hi f hf hconflict => absurd (hout i hi f hf).symm hconflict⟩
  · intro d hd
    obtain ⟨m, hm⟩ := h.owner d hd
    exact ⟨m, hm.snoc (.inl hq)⟩
  · intro m w hm hwrite
    rcases getElem?_snoc.mp hm with hm | ⟨-, rfl⟩
    · rcases h.owes m w hm hwrite with howes | ⟨j, hj, hissued⟩
      · exact .inl howes
      · exact .inr ⟨j, hj, getElem?_snoc.mpr (.inl hissued)⟩
    · rw [hq.1] at hwrite
      cases hwrite
  · intro d hd i hi f hf hconflict
    rcases mem_out hi hf with ⟨hi, hf⟩ | ⟨rfl, rfl⟩
    · exact (h.clear d hd i hi f hf hconflict).snoc (.inl hq)
    · exact absurd (conflict_reads ((is_read_back_iff d).mp (howed d hd)).2 hq.1) hconflict
  · rw [hq.1] at hw
    cases hw

end History

/-! ## The two calls -/

/-- The stream keeps the record. `out` has the places of the requests handed out
and not completed. -/
structure Raced (s : Stream) (l : List Request) (out : List Nat) : Prop where
  read_back : s.read_back = true
  race : s.race = true
  shaped : s.Shaped
  in_flight : (s.in_flight.map Request.io).Perm (out.map fun i => (l.getD i Request.default).io)
  places : ∀ i ∈ out, i < l.length
  history : History l s.owed out

namespace Raced

variable {s t u v : Stream} {env : Env} {out rest : List Nat}

theorem start (hs : s.Fresh) (hread_back : s.read_back = true) (hrace : s.race = true) :
    Raced s [] [] := by
  refine ⟨hread_back, hrace, hs.shaped, ?_, nofun, ?_⟩
  · rw [hs.in_flight]
    exact List.Perm.refl _
  · rw [Stream.owed, hs.due, hs.held]
    exact History.nothing

/-- Requests may move between the plan, the held ones and the owed ones. -/
theorem of_owed_perm (h : Raced s l out) (hf : Stream.Frame s t) (ht : t.Shaped)
    (hin : t.in_flight = s.in_flight) (howed : t.owed.Perm s.owed) : Raced t l out := by
  refine ⟨hf.read_back.trans h.read_back, hf.race.trans h.race, ht, ?_, h.places,
    h.history.perm howed fun _ => id⟩
  rw [hin]
  exact h.in_flight

/-- What is out is in flight, for the stream. -/
theorem mem_in_flight (h : Raced s l out) {i : Nat} {f : Request} (hi : i ∈ out)
    (hf : l[i]? = some f) : ∃ g ∈ s.in_flight, g.io = f.io := by
  have hmem : f.io ∈ out.map fun i => (l.getD i Request.default).io := by
    refine List.mem_map.mpr ⟨i, hi, ?_⟩
    rw [List.getD_eq_getElem?_getD, hf]
    rfl
  exact List.mem_map.mp (h.in_flight.symm.subset hmem)

/-- A request that is not a read-back and does not wait meets nothing that is out
and nothing that is due. -/
theorem of_not_blocked (h : Raced (v.hold q) l out) (hq : is_read_back q = false)
    (hb : v.blocked q = false) :
    (∀ i ∈ out, ∀ f, l[i]? = some f → Apart q f) ∧ ∀ d ∈ v.due, Apart q d := by
  have hread_back : v.read_back = true := h.read_back
  have hgates : ∀ other, v.gates q other = conflict q other := by
    intro other
    unfold Stream.gates
    unfold is_read_back at hq
    dsimp only
    rw [Bool.and_assoc v.race, hq, Bool.and_false, Bool.false_and, Bool.not_false, Bool.and_true]
  simp only [Stream.blocked, Stream.overlaps, hread_back, Bool.true_and, Bool.or_eq_false_iff,
    List.any_eq_false, hgates, Bool.not_eq_true] at hb
  refine ⟨fun i hi f hf => ?_, hb.2.2⟩
  obtain ⟨g, hg, hio⟩ := h.mem_in_flight hi hf
  exact (apart_congr rfl hio).mp (hb.2.1 g hg)

theorem history_hand_out (h : Raced (v.hold q) l out) (hb : v.blocked q = false) :
    History (l ++ [q]) (v.hand_out q).owed (l.length :: out) := by
  have hread_back : v.read_back = true := h.read_back
  have hrace : v.race = true := h.race
  have howed := Stream.hand_out_owed v q
  by_cases hrb : is_read_back q = true
  · -- it leaves the owed ones
    have hw : q.write = false := ((is_read_back_iff q).mp hrb).2
    simp only [Stream.raced, hrace, hread_back, hw, hrb, List.filter_cons, List.filter_nil,
      Bool.and_self, Bool.false_eq_true, if_true, if_false, List.map_nil, List.append_nil,
      List.cons_append, List.nil_append] at howed
    exact (h.history.perm howed.symm fun _ => id).read_back hrb
  · rw [Bool.not_eq_true] at hrb
    obtain ⟨hout, hdue⟩ := h.of_not_blocked hrb hb
    by_cases hw : q.write = true
    · -- a write has no read-back held above it, and its own is owed from now on
      have hheld : v.held = [] := h.shaped.held.of_write hw
      have hfree : ∀ d ∈ (v.hold q).owed, Apart q d := by
        intro d hd
        simp only [Stream.owed, Stream.hold, hheld, List.filter_cons, hrb, Bool.false_eq_true,
          if_false, List.filter_nil, List.append_nil] at hd
        exact hdue d hd
      simp only [Stream.raced, hrace, hread_back, hw, hrb, List.filter_cons, List.filter_nil,
        Bool.and_self, Bool.false_eq_true, if_true, if_false, List.map_cons, List.map_nil,
        List.nil_append] at howed
      have howed := howed.symm.trans (List.perm_append_singleton _ _)
      exact (h.history.write hw hout hfree).perm howed fun _ => id
    · rw [Bool.not_eq_true] at hw
      have hplain : Plain q := by
        refine ⟨hw, ?_⟩
        simpa [is_read_back, hw] using hrb
      simp only [Stream.raced, hrace, hread_back, hw, hrb, List.filter_cons, List.filter_nil,
        Bool.and_self, Bool.false_eq_true, if_true, if_false, List.map_nil,
        List.append_nil, List.nil_append] at howed
      refine (h.history.plain hplain hout fun d hd => ?_).perm howed.symm fun _ => id
      rw [Stream.owed, List.mem_append, List.mem_filter] at hd
      rcases hd with hd | hd
      · exact h.shaped.due d hd
      · exact hd.2

theorem hand_out (h : Raced (v.hold q) l out) (hb : v.blocked q = false) :
    Raced (v.hand_out q) (l ++ [q]) (l.length :: out) := by
  have hread_back : v.read_back = true := h.read_back
  refine ⟨h.read_back, h.race, h.shaped.hand_out, ?_, fun i hi => ?_, h.history_hand_out hb⟩
  · have hin : (v.hand_out q).in_flight = v.in_flight ++ [q] := by
      simp [Stream.hand_out, hread_back]
    have hlast : ((l ++ [q]).getD l.length Request.default).io = q.io := by simp
    have hmap : (out.map fun i => ((l ++ [q]).getD i Request.default).io) =
        out.map fun i => (l.getD i Request.default).io := by
      refine List.map_congr_left fun i hi => ?_
      rw [List.getD_eq_getElem?_getD, List.getD_eq_getElem?_getD,
        List.getElem?_append_left (h.places i hi)]
    rw [hin, List.map_append, List.map_cons, List.map_cons, hlast, hmap]
    exact (List.perm_append_singleton _ _).trans (h.in_flight.cons q.io)
  · rw [List.length_append]
    rcases List.mem_cons.mp hi with rfl | hi
    · exact Nat.lt_succ_self _
    · exact Nat.lt_succ_of_lt (h.places i hi)

/-- One call of `source`: what it hands out is the next of the order. -/
theorem source (h : Raced s l out) {n : Next} (hn : s.source env = (n, t)) :
    (∀ q, n = .request q → Raced t (l ++ [q]) (l.length :: out)) ∧
    ((∀ q, n ≠ .request q) → Raced t l out) := by
  rcases Stream.source_cases hn with ⟨hc, hnext⟩ | ⟨r, u, q, v, hc, ho, hb⟩
  · have ht : Raced t l out := h.of_owed_perm (Stream.candidate_frame hc)
      (h.shaped.no_candidate hc) (Stream.candidate_sent hc).1
      (Stream.no_candidate_owed hc ▸ List.Perm.refl _)
    refine ⟨fun q hq => ?_, fun _ => ht⟩
    rw [hq] at hnext
    split at hnext <;> cases hnext
  · have hu := h.shaped.candidate hc
    have hframe := (Stream.candidate_frame hc).trans (Stream.owed_first_frame ho)
    have hhold : Raced (v.hold q) l out := by
      refine h.of_owed_perm (hframe.trans (by constructor <;> rfl)) (hu.owed_first ho) ?_
        ((Stream.owed_first_owed hu ho).trans (Stream.candidate_owed h.shaped hc))
      exact (Stream.owed_first_sent ho).1.trans (Stream.candidate_sent hc).1
    rcases hb with ⟨_, rfl, rfl⟩ | ⟨hb, rfl, rfl⟩
    · exact ⟨nofun, fun _ => hhold⟩
    · refine ⟨fun q' hq' => ?_, fun hno => absurd rfl (hno q)⟩
      cases hq'
      exact hhold.hand_out hb

/-- One completion, of any request that is out. -/
theorem finish (h : Raced s l out) {buffer : List UInt8} {r : Request} {i : Nat}
    (hf : s.finish env buffer r = some t) (hout : out.Perm (i :: rest)) (hr : l[i]? = some r) :
    Raced t l rest := by
  have hfin := Stream.finish.spec hf
  obtain ⟨f, hio, hperm⟩ := hfin.in_flight h.read_back
  have howed := Stream.finish_owed hf
  rw [h.race, Bool.not_true, Bool.and_false, if_neg Bool.false_ne_true, List.append_nil] at howed
  have hrest : ∀ j ∈ rest, j ∈ out := fun j hj => hout.symm.subset (List.mem_cons_of_mem _ hj)
  refine ⟨hfin.read_back.trans h.read_back, hfin.race.trans h.race, h.shaped.finish hf, ?_,
    fun j hj => h.places j (hrest j hj), h.history.perm howed hrest⟩
  have hplace : (l.getD i Request.default).io = r.io := by
    rw [List.getD_eq_getElem?_getD, hr]
    rfl
  have hall : (f.io :: t.in_flight.map Request.io).Perm
      (r.io :: rest.map fun i => (l.getD i Request.default).io) := by
    have hmap := hout.map fun i => (l.getD i Request.default).io
    rw [List.map_cons, hplace] at hmap
    exact (hperm.symm.map Request.io).trans (h.in_flight.trans hmap)
  rw [hio] at hall
  exact hall.cons_inv

end Raced

end stutools
