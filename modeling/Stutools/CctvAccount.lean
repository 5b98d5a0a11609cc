-- The account of the frames over every run of the cameras: each frame is written, dropped,
-- given up by a camera that ends, or still waits, once and in order, and the totals of the
-- report are the sums over the cameras.
import Mathlib.Algebra.BigOperators.Fin
import Mathlib.Algebra.Order.BigOperators.Group.Finset
import Stutools.CctvTurns

open Finset

namespace stutools.cctv

/-! ## One camera -/

namespace Pc

/-- Past the loop of the camera. -/
def past : Pc → Bool
  | .leaving | .ended _ => true
  | .closing last | .recording last _ | .sending last => last
  | _ => false

theorem unmeasured_le (pc : Pc) : pc.unmeasured ≤ 1 := by
  cases pc <;> simp [unmeasured]

theorem Quiet.past {stopping : Bool} {pc pc' : Pc} (h : Quiet stopping pc pc') (hpast : pc.past = true) : pc'.past = true := by
  cases h <;> simp_all [Pc.past]

end Pc

namespace Lane

/-- The times of the frames that have come to something. -/
def settled (l : Lane) : List ℚ := l.fates.map fun f => f.generated_at

def in_hand (l : Lane) : List ℚ := l.pc.hand.toList.map Fetched.generated_at

/-- How many frames were generated. -/
def generated (l : Lane) : Nat := l.fates.length + l.in_hand.length + l.frames.backlog.length

def fates_of (l : Lane) (kind : Kind) : Nat := l.fates.countP fun f => f.kind = kind

/-- The account of a camera at the time `t` of the run. -/
structure Framed (c : Setup) (i : Fin c.count) (t : ℚ) (l : Lane) : Prop where
  in_order : l.settled ++ l.in_hand ++ l.frames.backlog = (List.range l.generated).map (c.clock i).frame
  due : l.frames.due = (c.clock i).frame l.generated
  generated : ∀ k < l.generated, (c.clock i).frame k ≤ t
  dropped : ∀ f ∈ l.fates, f.generated_at ≤ f.seen ∧
    (f.kind = .dropped ↔ c.drop_after < f.seen - f.generated_at)
  hand : ∀ f ∈ l.pc.hand, f.generated_at ≤ f.seen ∧ f.seen - f.generated_at ≤ c.drop_after
  room : 0 ≤ c.drop_after → l.frames.backlog.length * c.period ≤ c.drop_after
  abandoned : l.fates_of .abandoned ≤ 1 ∧ (0 < l.fates_of .abandoned → l.pc.past = true)

variable {c : Setup} {i : Fin c.count} {v : View} {l l' : Lane} {e : Effect c.count} {t t' : ℚ}

theorem Framed.mono (h : Framed c i t l) (hle : t ≤ t') : Framed c i t' l :=
  { h with generated := fun k hk => le_trans (h.generated k hk) hle }

/-- The account is one of the frames and of where the camera is. -/
theorem Framed.congr (h : Framed c i t l) (hfates : l'.fates = l.fates) (hframes : l'.frames = l.frames)
    (hhand : l'.pc.hand = l.pc.hand) (hpast : l.pc.past = true → l'.pc.past = true) : Framed c i t l' := by
  have hsettled : l'.settled = l.settled := by simp [settled, hfates]
  have hin_hand : l'.in_hand = l.in_hand := by simp [in_hand, hhand]
  have hgenerated : l'.generated = l.generated := by
    simp [Lane.generated, hfates, hin_hand, hframes]
  have hof : l'.fates_of = l.fates_of := by
    funext kind
    simp [fates_of, hfates]
  refine ⟨?_, ?_, ?_, ?_, ?_, ?_, ?_⟩
  · rw [hsettled, hin_hand, hframes, hgenerated]
    exact h.in_order
  · rw [hframes, hgenerated]
    exact h.due
  · rw [hgenerated]
    exact h.generated
  · rw [hfates]
    exact h.dropped
  · rw [hhand]
    exact h.hand
  · rw [hframes]
    exact h.room
  · rw [hof]
    exact ⟨h.abandoned.1, fun hpos => hpast (h.abandoned.2 hpos)⟩

/-- The frame in hand comes to something. -/
theorem Framed.settle {f : Fetched} {kind : Kind} (h : Framed c i t l) (hhand : l.pc.hand = some f)
    (hfates : l'.fates = l.fates ++ [⟨f, kind⟩]) (hframes : l'.frames = l.frames)
    (hfree : l'.pc.hand = none) (hkind : kind ≠ .dropped)
    (hlast : kind = .abandoned → l'.pc.past = true) (hpast : l.pc.past = false) : Framed c i t l' := by
  obtain ⟨hdue, hwait⟩ := h.hand f (by simp [hhand])
  have hsettled : l'.settled ++ l'.in_hand = l.settled ++ l.in_hand := by
    simp [settled, in_hand, hfates, hfree, hhand]
  have hgenerated : l'.generated = l.generated := by
    simp only [Lane.generated, hframes, in_hand, hfree, hhand, hfates, List.length_append,
      Option.toList_none, Option.toList_some, List.map_nil, List.map_cons, List.length_nil,
      List.length_cons]
  have hone : l'.fates_of .abandoned = l.fates_of .abandoned + if kind = .abandoned then 1 else 0 := by
    simp [fates_of, hfates, List.countP_append, List.countP_cons]
  have hnone : l.fates_of .abandoned = 0 := by
    by_contra hpos
    have := h.abandoned.2 (Nat.pos_of_ne_zero hpos)
    simp [hpast] at this
  refine ⟨?_, ?_, ?_, fun g hg => ?_, ?_, ?_, ?_, ?_⟩
  · rw [hsettled, hframes, hgenerated]
    exact h.in_order
  · rw [hframes, hgenerated]
    exact h.due
  · rw [hgenerated]
    exact h.generated
  · rw [hfates, List.mem_append, List.mem_singleton] at hg
    rcases hg with hg | rfl
    · exact h.dropped g hg
    · exact ⟨hdue, by simp [hkind, hwait]⟩
  · simp [hfree]
  · rw [hframes]
    exact h.room
  · rw [hone, hnone]
    split_ifs <;> omega
  · intro hpos
    apply hlast
    by_contra hne
    simp [hone, hnone, hne] at hpos

theorem range_split (m n : Nat) : List.range (m + n) = List.range m ++ List.range' m n := by
  rw [List.range_eq_range', List.range_eq_range', ← List.range'_append_1, Nat.zero_add]

/-- At the top of the loop, the frames that wait are the last ones generated. -/
theorem Framed.waiting (h : Framed c i t l) (hhand : l.pc.hand = none) :
    l.settled = (List.range l.fates.length).map (c.clock i).frame ∧
      Frames.Waiting (c.clock i) l.fates.length l.generated l.frames := by
  have hlen : l.generated = l.fates.length + l.frames.backlog.length := by
    simp [Lane.generated, in_hand, hhand]
  have hlist := h.in_order
  rw [hlen, range_split, List.map_append, in_hand, hhand] at hlist
  simp only [Option.toList_none, List.map_nil, List.append_nil] at hlist
  obtain ⟨hsettled, hbacklog⟩ := List.append_inj hlist (by simp [settled])
  refine ⟨hsettled, by omega, h.due, ?_⟩
  rw [hlen, Nat.add_sub_cancel_left]
  exact hbacklog

/-- What the top of the loop leaves in hand. -/
theorem passes_hand {n : Nat} (l : Lane) (k : Clock) (drop_after elapsed : ℚ) :
    (l.passes k drop_after elapsed : Lane × Effect n).1.pc.hand =
      (l.frames.pass k drop_after elapsed).fetched.map fun g => ⟨g, elapsed⟩ := by
  unfold passes
  cases hfetched : (l.frames.pass k drop_after elapsed).fetched with
  | none => simp [hfetched, Pc.hand]
  | some g =>
    simp only [hfetched, Option.map_some]
    split_ifs <;> rfl

theorem Framed.passes (h : Framed c i t l) (hpc : l.pc = .top) (hle : t ≤ v.elapsed) :
    Framed c i v.elapsed (l.passes (c.clock i) c.drop_after v.elapsed : Lane × Effect c.count).1 ∧
      (l.passes (c.clock i) c.drop_after v.elapsed : Lane × Effect c.count).1.generated =
        l.generated + (l.frames.pass (c.clock i) c.drop_after v.elapsed).generated := by
  have hfree : l.pc.hand = none := by simp [hpc, Pc.hand]
  obtain ⟨hsettled, hwaiting⟩ := h.waiting hfree
  obtain ⟨m', n', hp⟩ := @Frames.pass.spec _ c.drop_after v.elapsed _ _ _ hwaiting
  have hbefore : ∀ k < l.generated, (c.clock i).frame k ≤ v.elapsed := fun k hk =>
    le_trans (h.generated k hk) hle
  have hdue : ∀ k < n', (c.clock i).frame k ≤ v.elapsed := fun k hk => by
    rcases Nat.lt_or_ge k l.generated with hlt | hge
    · exact hbefore k hlt
    · exact hp.is_due k hge hk
  have hhand := @passes_hand c.count l (c.clock i) c.drop_after v.elapsed
  have hroom := fun hpos => hp.room hbefore hpos
  set p := l.frames.pass (c.clock i) c.drop_after v.elapsed with hpdef
  set l' := (l.passes (c.clock i) c.drop_after v.elapsed : Lane × Effect c.count).1 with hl'
  have hframes : l'.frames = p.frames := rfl
  have hfates : l'.fates = l.fates ++ p.dropped.map fun g => Fate.mk ⟨g, v.elapsed⟩ .dropped := rfl
  have hle' := hp.le
  have hlast := hp.last
  -- the frames that come to something are those before `m'`
  have hsettled' : l'.settled = (List.range m').map (c.clock i).frame := by
    have hsplit := range_split l.fates.length (m' - l.fates.length)
    rw [Nat.add_sub_cancel' hle'] at hsplit
    rw [settled, hfates, List.map_append, List.map_map, hsplit, List.map_append, ← hsettled, hp.dropped]
    simp [settled, Function.comp_def]
  have hlen : l'.fates.length = m' := by
    have := congrArg List.length hsettled'
    simpa [settled] using this
  have hin_hand : l'.in_hand = if m' < n' then [(c.clock i).frame m'] else [] := by
    rw [in_hand, hhand, hp.fetched]
    split_ifs <;> simp
  have hcount : l'.generated = n' := by
    rw [Lane.generated, hlen, hin_hand, hframes, hp.frames.backlog]
    split_ifs
    · simp
      omega
    · simp
      omega
  refine ⟨⟨?_, ?_, ?_, fun f hf => ?_, fun f hf => ?_, fun hpos => ?_, ?_⟩, ?_⟩
  · have hrange := range_split m' (n' - m')
    rw [Nat.add_sub_cancel' hlast] at hrange
    rw [hcount, hsettled', hin_hand, hframes, hp.frames.backlog, hrange, List.map_append]
    split_ifs with hlt
    · obtain ⟨k, hk⟩ : ∃ k, n' - m' = k + 1 := ⟨n' - m' - 1, by omega⟩
      have hk' : n' - (m' + 1) = k := by omega
      simp [hk, hk', List.range'_succ]
    · simp
  · rw [hcount, hframes]
    exact hp.frames.due
  · rw [hcount]
    exact hdue
  · rw [hfates, List.mem_append, List.mem_map] at hf
    rcases hf with hf | ⟨g, hg, rfl⟩
    · exact h.dropped f hf
    · rw [hp.dropped, List.mem_map] at hg
      obtain ⟨k, hk, rfl⟩ := hg
      rw [List.mem_range'_1] at hk
      exact ⟨hdue k (by omega), by simpa using hp.late k hk.1 (by omega)⟩
  · rw [hhand, hp.fetched] at hf
    split_ifs at hf with hlt
    · simp only [Option.map_some, Option.mem_some_iff] at hf
      subst hf
      exact ⟨hdue m' hlt, hp.in_time hlt⟩
    · simp at hf
  · rw [hframes]
    exact hroom hpos
  · have hnone : l.fates_of .abandoned = 0 := by
      by_contra hpos
      have := h.abandoned.2 (Nat.pos_of_ne_zero hpos)
      simp [hpc, Pc.past] at this
    have hsame : l'.fates_of .abandoned = 0 := by
      rw [fates_of, hfates, List.countP_append]
      simpa [fates_of] using hnone
    simp [hsame]
  · rw [hcount, hp.generated]
    have := hp.le'
    omega

/-- The account of the turned camera, and what it adds to the totals. -/
theorem Turned.framed (h : Turned c i v l l' e) (hframed : Framed c i t l) (hle : t ≤ v.elapsed) :
    Framed c i v.elapsed l' ∧ l'.generated = l.generated + e.generated ∧
      l'.fates_of .dropped = l.fates_of .dropped + e.dropped := by
  have hlate := hframed.mono hle
  have hsame : ∀ {l' : Lane}, l'.fates = l.fates → l'.frames = l.frames → l'.pc.hand = l.pc.hand →
      (l.pc.past = true → l'.pc.past = true) → Framed c i v.elapsed l' ∧
        l'.generated = l.generated + 0 ∧ l'.fates_of .dropped = l.fates_of .dropped + 0 :=
    fun hfates hframes hhand hpast => by
      refine ⟨hlate.congr hfates hframes hhand hpast, ?_, ?_⟩
      · simp [Lane.generated, in_hand, hfates, hframes, hhand]
      · simp [fates_of, hfates]
  have hsettles : ∀ {l' : Lane} {f : Fetched} {kind : Kind}, l.pc.hand = some f →
      l'.fates = l.fates ++ [⟨f, kind⟩] → l'.frames = l.frames → l'.pc.hand = none → kind ≠ .dropped →
      (kind = .abandoned → l'.pc.past = true) → l.pc.past = false → Framed c i v.elapsed l' ∧
        l'.generated = l.generated + 0 ∧ l'.fates_of .dropped = l.fates_of .dropped + 0 :=
    fun hhand hfates hframes hfree hkind hlast hpast => by
      refine ⟨hlate.settle hhand hfates hframes hfree hkind hlast hpast, ?_, ?_⟩
      · simp [Lane.generated, in_hand, hfates, hframes, hhand, hfree]
      · simp [fates_of, hfates, List.countP_append, hkind]
  cases h with
  | moves pc ready sample hquiet =>
    exact hsame rfl rfl hquiet.same.1 hquiet.past
  | takes q pc hvalue hcurrent hgo hpc =>
    refine hsame rfl rfl ?_ ?_
    · rcases hpc with ⟨hpc, rfl⟩ | ⟨f, w, hpc, rfl⟩ <;> (rw [hpc]; rfl)
    · rcases hpc with ⟨hpc, rfl⟩ | ⟨f, w, hpc, rfl⟩ <;> simp [hpc, Pc.past]
  | passes hpc =>
    obtain ⟨hnew, hgenerated⟩ := hframed.passes hpc hle
    refine ⟨hnew, hgenerated, ?_⟩
    simp [fates_of, Lane.passes, List.countP_append, List.countP_map, Function.comp_def]
  | gives_up f hpc hkind =>
    refine hsettles hpc rfl rfl rfl (by simp) (fun _ => rfl) ?_
    rcases hkind with ⟨⟨w, hpc⟩, -⟩ | hpc <;> simp [hpc, Pc.past]
  | writes q f io hpc hcurrent hok =>
    simp only [Lane.writes, hok, ↓reduceIte]
    exact hsettles (by simp [hpc, Pc.hand]) rfl rfl rfl (by simp) (by simp) (by simp [hpc, Pc.past])
  | write_fails q f io hpc hcurrent hok =>
    simp only [Lane.writes, hok]
    exact hsettles (by simp [hpc, Pc.hand]) rfl rfl rfl (by simp) (fun _ => rfl) (by simp [hpc, Pc.past])
  | measures q io hpc hcurrent hrecord =>
    have hout : l.pc.hand = none ∧ l.pc.past = false := by simp [hpc, Pc.hand, Pc.past]
    unfold Lane.measures
    cases hr : v.record with
    | refused => exact absurd hr hrecord
    | late =>
      refine hsame rfl rfl ?_ (by simp [hout.2])
      rw [hout.1]
      dsimp only
      split_ifs <;> rfl
    | measured =>
      refine hsame rfl rfl ?_ (by simp [hout.2])
      rw [hout.1]
      dsimp only
      split_ifs <;> rfl
  | counts last hpc => exact hsame rfl rfl (by simp [hpc, Pc.hand]) (by simp [hpc, Pc.past])
  | sends q last hpc hcurrent hcloser =>
    cases last
    · exact hsame rfl rfl (by simp [Lane.sends, hpc, Pc.hand]) (by simp [hpc, Pc.past])
    · exact hsame rfl rfl (by simp [Lane.sends, hpc, Pc.hand]) (by simp [Lane.sends, Pc.past])
  | closes q hpc => exact hsame rfl rfl (by simp [hpc, Pc.hand]) (by simp [Pc.past])
  | removes q hpc =>
    refine hsame rfl rfl ?_ (by simp [Lane.ends, Pc.past])
    rcases hpc with hpc | hpc <;> simp [Lane.ends, hpc, Pc.hand]
  | ends hpc =>
    refine hsame rfl rfl ?_ (by simp [Lane.ends, Pc.past])
    rcases hpc with hpc | hpc <;> simp [Lane.ends, hpc, Pc.hand]
  | fails hhand => exact hsame rfl rfl (by rw [hhand]; rfl) (by simp [Lane.ends, Pc.past])
  | rotation_fails f w hpc =>
    exact hsettles (by simp [hpc, Pc.hand]) rfl rfl rfl (by simp) (fun _ => rfl) (by simp [hpc, Pc.past])

/-- The camera has ended with an error. -/
def failed (l : Lane) : Nat :=
  match l.pc with
  | .ended false => 1
  | _ => 0

theorem failed_of_live (h : ∀ ok, l.pc ≠ .ended ok) : l.failed = 0 := by
  unfold failed
  split
  · rename_i hpc
    exact absurd hpc (h false)
  · rfl

end Lane

/-- The writes in time that a turn counts. -/
def Effect.writes {n : Nat} (e : Effect n) : Nat := e.sample.elim 0 fun m => m.1.writes

namespace Lane

/-- A write is counted by the turn after it, unless its record is refused, which is the end of
the camera. -/
theorem Turned.counts_writes (h : Turned c i v l l' e) : l.failed = 0 ∧ e.written = e.writes * c.sizes.block ∧
    ∃ d ≤ l'.failed, l'.fates_of .written + l.pc.unmeasured =
      l.fates_of .written + l'.pc.unmeasured + (e.writes + e.late) + d := by
  have hkept : ∀ {l' : Lane}, l'.fates = l.fates → l'.pc.unmeasured = l.pc.unmeasured →
      ∃ d ≤ l'.failed, l'.fates_of .written + l.pc.unmeasured =
        l.fates_of .written + l'.pc.unmeasured + (0 + 0) + d := fun hfates hpc => by
    exact ⟨0, Nat.zero_le _, by simp [fates_of, hfates, hpc]⟩
  cases h with
  | moves pc ready sample hquiet hwrite =>
    have hnone : (Effect.mk (n := c.count) ready 0 0 0 0 0 sample none false).writes = 0 := by
      cases sample with
      | none => rfl
      | some m => exact hwrite m rfl
    refine ⟨?_, by simp [hnone], ?_⟩
    · exact failed_of_live hquiet.live
    · rw [hnone]
      exact hkept rfl hquiet.same.2.1
  | takes q pc hvalue hcurrent hgo hpc =>
    rcases hpc with ⟨hpc, rfl⟩ | ⟨f, w, hpc, rfl⟩
    · exact ⟨by simp [failed, hpc], by simp [Effect.writes], hkept rfl (by rw [hpc]; rfl)⟩
    · exact ⟨by simp [failed, hpc], by simp [Effect.writes], hkept rfl (by rw [hpc]; rfl)⟩
  | passes hpc =>
    refine ⟨by simp [failed, hpc], by simp [Effect.writes, Lane.passes], 0, Nat.zero_le _, ?_⟩
    have hfree : (l.passes (c.clock i) c.drop_after v.elapsed : Lane × Effect c.count).1.pc.unmeasured = 0 := by
      unfold Lane.passes
      dsimp only
      split
      · rfl
      · split_ifs <;> rfl
    rw [hfree, hpc]
    simp [fates_of, Lane.passes, Effect.writes, Pc.unmeasured, List.countP_append, List.countP_map,
      Function.comp_def]
  | gives_up f hpc hkind =>
    have hkind' : l.pc.unmeasured = 0 ∧ l.failed = 0 := by
      rcases hkind with ⟨⟨w, hpc⟩, -⟩ | hpc <;> simp [failed, hpc, Pc.unmeasured]
    refine ⟨hkind'.2, by simp [Effect.writes], 0, Nat.zero_le _, ?_⟩
    rw [hkind'.1]
    simp [fates_of, Effect.writes, Pc.unmeasured, List.countP_append]
  | writes q f io hpc hcurrent hok =>
    simp only [Lane.writes, hok, ↓reduceIte]
    refine ⟨by simp [failed, hpc], by simp [Effect.writes], 0, Nat.zero_le _, ?_⟩
    simp [fates_of, hpc, Effect.writes, Pc.unmeasured, List.countP_append]
  | write_fails q f io hpc hcurrent hok =>
    simp only [Lane.writes, hok]
    refine ⟨by simp [failed, hpc], by simp [Effect.writes, Lane.fails, Lane.ends], 0, Nat.zero_le _, ?_⟩
    simp [Lane.fails, Lane.ends, fates_of, hpc, Effect.writes, Pc.unmeasured, List.countP_append]
  | measures q io hpc hcurrent hrecord =>
    refine ⟨by simp [failed, hpc], ?_⟩
    have hfree : ∀ {b : Prop} [Decidable b], (if b then Pc.closing false else Pc.top).unmeasured = 0 := by
      intro b _
      split_ifs <;> rfl
    unfold Lane.measures
    cases hr : v.record with
    | refused => exact absurd hr hrecord
    | late =>
      refine ⟨by simp [Effect.writes], 0, Nat.zero_le _, ?_⟩
      simp only [hfree, hpc]
      simp [fates_of, Effect.writes, Pc.unmeasured]
    | measured =>
      refine ⟨by simp [Effect.writes, write_sample, write_metrics], 0, Nat.zero_le _, ?_⟩
      simp only [hfree, hpc]
      simp [fates_of, Effect.writes, Pc.unmeasured, write_sample, write_metrics]
  | counts last hpc =>
    exact ⟨by simp [failed, hpc], by simp [Effect.writes], hkept rfl (by rw [hpc]; rfl)⟩
  | sends q last hpc hcurrent hcloser =>
    refine ⟨by simp [failed, hpc], by simp [Effect.writes, Lane.sends], hkept rfl ?_⟩
    cases last <;> simp [Lane.sends, hpc, Pc.unmeasured]
  | closes q hpc =>
    exact ⟨by simp [failed, hpc], by simp [Effect.writes], hkept rfl (by rw [hpc]; rfl)⟩
  | removes q hpc =>
    refine ⟨?_, by simp [Effect.writes], hkept rfl ?_⟩
    · rcases hpc with hpc | hpc <;> simp [failed, hpc]
    · rcases hpc with hpc | hpc <;> (rw [hpc]; rfl)
  | ends hpc =>
    refine ⟨?_, by simp [Effect.writes], hkept rfl ?_⟩
    · rcases hpc with hpc | hpc <;> simp [failed, hpc]
    · rcases hpc with hpc | hpc <;> (rw [hpc]; rfl)
  | fails hhand hcurrent hlive =>
    refine ⟨failed_of_live hlive, by simp [Effect.writes], l.pc.unmeasured, ?_, ?_⟩
    · exact Pc.unmeasured_le l.pc
    · simp [Lane.ends, fates_of, Effect.writes]
      rfl
  | rotation_fails f w hpc =>
    refine ⟨by simp [failed, hpc], by simp [Effect.writes], 0, Nat.zero_le _, ?_⟩
    simp [Lane.fails, Lane.ends, fates_of, hpc, Effect.writes, Pc.unmeasured, List.countP_append]

end Lane

/-! ## The run -/

namespace State

variable {c : Setup} {s t : State c.count}

/-- A sum over the cameras, one of which changes. -/
theorem sum_update {n : Nat} (f : Lane → Nat) (lanes : Fin n → Lane) (i : Fin n) (l : Lane) :
    ∑ j, f (Function.update lanes i l j) + f (lanes i) = ∑ j, f (lanes j) + f l := by
  have hcomp : ∀ j, f (Function.update lanes i l j) = Function.update (fun j => f (lanes j)) i (f l) j := by
    intro j
    by_cases hj : j = i
    · subst hj
      simp
    · simp [hj]
  have hsum := Finset.add_sum_erase univ (fun j => f (lanes j)) (mem_univ i)
  simp only [hcomp, Finset.sum_update_of_mem (mem_univ i), ← Finset.erase_eq]
  omega

/-- The account of the run: that of each camera, and the totals. -/
structure Accounted (c : Setup) (s : State c.count) : Prop where
  frames : ∀ i, (s.lanes i).Framed c i s.elapsed
  generated : s.generated = ∑ i, (s.lanes i).generated
  dropped : s.dropped = ∑ i, (s.lanes i).fates_of .dropped
  recorded : s.metrics.total.1.writes + s.late + ∑ i, (s.lanes i).pc.unmeasured ≤
    ∑ i, (s.lanes i).fates_of .written
  refused : ∑ i, (s.lanes i).fates_of .written ≤ s.metrics.total.1.writes + s.late +
    ∑ i, (s.lanes i).pc.unmeasured + ∑ i, (s.lanes i).failed
  bytes : s.written = s.metrics.total.1.writes * c.sizes.block

theorem init_accounted (c : Setup) : Accounted c (init c) := by
  refine ⟨fun i => ⟨?_, ?_, ?_, ?_, ?_, ?_, ?_⟩, ?_, ?_, ?_, ?_, ?_⟩
  · simp [init, Lane.settled, Lane.in_hand, Pc.hand, Lane.generated, Frames.start]
  · simp [init, Lane.in_hand, Pc.hand, Lane.generated, Frames.start, Clock.frame]
  · simp [init, Lane.in_hand, Pc.hand, Lane.generated, Frames.start]
  · simp [init]
  · simp [init, Pc.hand]
  · simp [init, Frames.start]
  · simp [init, Lane.fates_of]
  · simp [init, Lane.in_hand, Pc.hand, Lane.generated, Frames.start]
  · simp [init, Lane.fates_of]
  · simp [init, Pc.unmeasured]
    exact Nat.zero_le _
  · simp [init, Lane.fates_of]
  · simp [init]
    exact .inl rfl

theorem Calm.accounted (h : Calm s t) (hs : Accounted c s) (hle : s.elapsed ≤ t.elapsed) :
    Accounted c t := by
  have hgenerated : ∀ i, (t.lanes i).generated = (s.lanes i).generated := fun i => by
    simp [Lane.generated, Lane.in_hand, (h.lanes i).fates, (h.lanes i).pc, (h.lanes i).frames]
  have hof : ∀ i, (t.lanes i).fates_of = (s.lanes i).fates_of := fun i => by
    funext kind
    simp [Lane.fates_of, (h.lanes i).fates]
  have hfailed : ∀ i, (t.lanes i).failed = (s.lanes i).failed := fun i => by
    simp [Lane.failed, (h.lanes i).pc]
  have hpc : ∀ i, (t.lanes i).pc = (s.lanes i).pc := fun i => (h.lanes i).pc
  refine ⟨fun i => ?_, ?_, ?_, ?_, ?_, ?_⟩
  · exact ((hs.frames i).mono hle).congr (h.lanes i).fates (h.lanes i).frames (by rw [hpc i])
      (by rw [hpc i]; exact id)
  · simpa only [hgenerated, h.generated] using hs.generated
  · simpa only [hof, h.dropped] using hs.dropped
  · simpa only [hof, hpc, h.writes, h.late] using hs.recorded
  · simpa only [hof, hpc, hfailed, h.writes, h.late] using hs.refused
  · simpa only [h.written, h.writes] using hs.bytes

/-- What a turn records is merged. -/
theorem apply_writes {i : Fin c.count} {l : Lane} {e : Effect c.count}
    (h : e.writes = 0 ∨ s.refused = false) :
    ((s.lane i l).apply e).metrics.total.1.writes = s.metrics.total.1.writes + e.writes := by
  unfold apply Effect.writes at *
  cases hsample : e.sample with
  | none => rfl
  | some m =>
    rw [hsample] at h
    have hmerge : ((s.lane i l).merge m) = s.merge m := rfl
    simp only [Option.elim_some, hmerge] at h ⊢
    rcases h with hnone | hrefused
    · rw [merge_none s hnone, hnone]
      rfl
    · rw [merge_total hrefused]
      rfl

theorem Turned_refused {i : Fin c.count} {l : Lane} {e : Effect c.count}
    (h : (s.lanes i).Turned c i (s.view c) l e) : e.writes = 0 ∨ s.refused = false := by
  cases h with
  | moves pc ready sample hquiet hwrite =>
    left
    cases sample with
    | none => rfl
    | some m => exact hwrite m rfl
  | writes q f io hpc hcurrent hok =>
    left
    simp [Lane.writes, hok, Effect.writes]
  | write_fails q f io hpc hcurrent hok =>
    left
    simp [Lane.writes, hok, Effect.writes, Lane.fails, Lane.ends]
  | measures q io hpc hcurrent hrecord =>
    unfold Lane.measures
    cases hr : (s.view c).record with
    | measured =>
      right
      unfold View.record at hr
      split_ifs at hr with hend hrefused
      simpa [view] using hrefused
    | late =>
      left
      simp [Effect.writes]
    | refused => exact absurd hr hrecord
  | _ => left; simp [Effect.writes, Lane.passes, Lane.sends]

theorem step_accounted {ev : Event c.count} (h : step c s ev = some t) (ht : Timed s)
    (hs : Accounted c s) : Accounted c t := by
  have hle := (step_timed h ht).2
  rcases step_cases h with ⟨i, l, e, hturned, rfl⟩ | hcalm
  · obtain ⟨hframed, hgenerated, hdropped⟩ := hturned.framed (hs.frames i) (le_refl s.elapsed)
    obtain ⟨hlive, hbytes, d, hd, hwritten⟩ := hturned.counts_writes
    have hwrites := @apply_writes _ s i l e (Turned_refused hturned)
    have hsum := fun f => sum_update f s.lanes i l
    have hlanes : ((s.lane i l).apply e).lanes = Function.update s.lanes i l := rfl
    refine ⟨fun j => ?_, ?_, ?_, ?_, ?_, ?_⟩
    · rw [hlanes]
      by_cases hj : j = i
      · subst hj
        rw [Function.update_self]
        exact hframed.mono hle
      · rw [Function.update_of_ne hj]
        exact (hs.frames j).mono hle
    · have := hsum Lane.generated
      have := hs.generated
      show s.generated + e.generated = _
      rw [hlanes]
      omega
    · have := hsum fun l => l.fates_of .dropped
      have := hs.dropped
      show s.dropped + e.dropped = _
      rw [hlanes]
      omega
    · have := hsum fun l => l.fates_of .written
      have := hsum fun l => l.pc.unmeasured
      have := hs.recorded
      show _ + (s.late + e.late) + _ ≤ _
      rw [hwrites, hlanes]
      omega
    · have := hsum fun l => l.fates_of .written
      have := hsum fun l => l.pc.unmeasured
      have := hsum Lane.failed
      have := hs.refused
      show _ ≤ _ + (s.late + e.late) + _ + _
      rw [hwrites, hlanes]
      omega
    · show s.written + e.written = _
      rw [hwrites, hs.bytes, hbytes, Nat.add_mul]
  · exact hcalm.accounted hs hle

theorem run_accounted {es : List (Event c.count)} (hrun : machine.run (step c) (init c) es = some s) :
    Accounted c s := by
  have hinv := @machine.invariant _ _ (step c) (fun s => Timed s ∧ Accounted c s)
    (fun s e t h hstep => ⟨(step_timed hstep h.1).1, step_accounted hstep h.1 h.2⟩) _ _ _ hrun
    ⟨fun _ => rfl, init_accounted c⟩
  exact hinv.2

end State

/-- What a camera that has ended leaves: the frames that wait, and the one it had in hand. -/
def Lane.left (l : Lane) : Nat := l.fates_of .abandoned + l.frames.backlog.length

/-- What the report says of the frames when every camera has ended well. -/
def Reports (c : Setup) (s : State c.count) : Prop :=
  (∀ i, (s.lanes i).pc = .ended true) →
    s.generated = s.metrics.total.1.writes + s.late + s.dropped + ∑ i, (s.lanes i).left

/-- A fate is one of three. -/
theorem fates_length (l : Lane) :
    l.fates.length = l.fates_of .written + l.fates_of .dropped + l.fates_of .abandoned := by
  unfold Lane.fates_of
  induction l.fates with
  | nil => rfl
  | cons f fates ih =>
    simp only [List.length_cons, List.countP_cons, ih]
    cases f.kind <;> simp <;> omega

theorem State.Accounted.reports {c : Setup} {s : State c.count} (h : s.Accounted c) : Reports c s := by
  intro hended
  have hgenerated : ∀ i, (s.lanes i).generated =
      (s.lanes i).fates_of .written + (s.lanes i).fates_of .dropped + (s.lanes i).left := fun i => by
    simp only [Lane.generated, fates_length, Lane.left, Lane.in_hand, hended i, Pc.hand,
      Option.toList_none, List.map_nil, List.length_nil]
    omega
  have hfree : ∑ i, (s.lanes i).pc.unmeasured = 0 := by simp [hended, Pc.unmeasured]
  have hwell : ∑ i, (s.lanes i).failed = 0 := by simp [hended, Lane.failed]
  have hrecorded := h.recorded
  have hrefused := h.refused
  have hsum := h.generated
  simp only [hgenerated, sum_add_distrib] at hsum
  have hdropped := h.dropped
  omega

/-- In every run of the cameras, each frame comes to one thing, in the order in which the frames
were due: it is dropped when it has waited longer than the deadline, and written or given up when
it has not; the backlog is bounded, and the totals add up. -/
theorem every_frame_is_written_dropped_or_left_once_and_in_order (c : Setup) (es : List (Event c.count))
    (s : State c.count) (hrun : machine.run (step c) (init c) es = some s) :
    s.Accounted c ∧ Reports c s :=
  ⟨State.run_accounted hrun, (State.run_accounted hrun).reports⟩

theorem block_le_block : 64 ≤ 64 := Nat.le_refl 64

theorem two_blocks_pos : 0 < 128 := by decide

theorem block_dvd_two_blocks : 64 ∣ 128 := by decide

theorem frame_rate_pos : 0 < mkRat 512 1000000 := by decide +kernel

theorem first_run_lt : 1 < 2 ^ 128 := by decide +kernel

/-- One camera, a frame in a second, and two frames in a recording. -/
def one_camera : Setup where
  sizes := ⟨64, 128, block_le_block, two_blocks_pos, block_dvd_two_blocks⟩
  count := 1
  mbps := mkRat 512 1000000
  mbps_pos := frame_rate_pos
  drop_after := (5 : ℕ)
  duration := none
  seed := 7
  ns := ⟨['c'], false, 1, 1, first_run_lt⟩

def the_camera : Fin one_camera.count := (0 : Fin 1)

/-- A first file and the next one are prepared, a frame is written in the first second and one in
the second, and the recording goes to the closers. -/
def two_frames : List (Event one_camera.count) :=
  List.replicate 5 (.allocator {}) ++ List.replicate 2 (.camera the_camera {}) ++
    List.replicate 6 (.allocator {}) ++ [.main {}, .tick (1 : ℕ)] ++
    List.replicate 5 (.camera the_camera {}) ++ [.tick (2 : ℕ)] ++
    List.replicate 7 (.camera the_camera {}) ++ List.replicate 4 (.closer 0 {})

theorem two_frames_run :
    (machine.run (step one_camera) (init one_camera) two_frames).isSome = true := by decide +kernel

theorem two_frames_are_written : ∃ s, machine.run (step one_camera) (init one_camera) two_frames = some s ∧
    s.Accounted one_camera ∧ Reports one_camera s := by
  obtain ⟨s, hs⟩ := Option.isSome_iff_exists.mp two_frames_run
  exact ⟨s, hs, every_frame_is_written_dropped_or_left_once_and_in_order one_camera two_frames s hs⟩

/-! ## A camera that keeps up -/

theorem Setup.first_nonneg (c : Setup) (i : Fin c.count) : 0 ≤ (c.clock i).first := by
  have hshare : (0 : ℚ) ≤ (i.val : ℚ) / (c.count : ℚ) := by positivity
  exact mul_nonneg c.period_pos.le (by linarith)

/-- A camera loses no frame as long as, at each pass, how late it is and the time since its last
pass stay within the deadline, and then a frame waits no longer than these two together; within a
deadline of a period or more, passes that come every period are never late. -/
theorem a_camera_drops_nothing_while_its_stalls_stay_below_the_deadline (c : Setup) (i : Fin c.count)
    (times : List ℚ) :
    (Frames.Paced c.period c.drop_after 0 0 times →
      Frames.Served (c.clock i) c.drop_after 0 0 (Frames.start (c.clock i)) times) ∧
    (c.period ≤ c.drop_after → (0 :: times).IsChain (fun a b => a ≤ b ∧ b ≤ a + c.period) →
      Frames.Paced c.period c.drop_after 0 0 times) := by
  refine ⟨fun hpaced => ?_, Frames.paced_of_even⟩
  have hfirst := c.first_nonneg i
  refine (Frames.Waiting.start (c.clock i)).served (fun k hk => (by omega)) ?_ hpaced
  simp only [Clock.frame, Nat.cast_zero, zero_mul, add_zero]
  linarith

/-- A pass in every second. -/
theorem a_frame_in_every_second_is_served :
    Frames.Served (one_camera.clock the_camera) one_camera.drop_after 0 0
      (Frames.start (one_camera.clock the_camera)) [1, 2, 3] := by
  have h := a_camera_drops_nothing_while_its_stalls_stay_below_the_deadline one_camera the_camera [1, 2, 3]
  have hperiod : one_camera.period = 1 := by decide +kernel
  apply h.1
  apply h.2
  · rw [hperiod]
    decide +kernel
  · rw [hperiod]
    simp only [List.isChain_cons_cons, List.isChain_singleton]
    norm_num

end stutools.cctv
