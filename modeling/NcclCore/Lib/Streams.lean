import Mathlib.Data.Fintype.Lattice

/-! Parties that go through stages and exchange elements over bounded streams. Before a
stage, each end of a stream must have moved what is due, the same for both ends; within a
stage the transfers of a party are taken in any order and in parts of any size. Then some
transfer, or some end of a stage, is always possible. -/
namespace NcclCore.Lib
open Function

/-- Streams between parties. -/
structure Streams (Party Chan : Type) where
  src : Chan → Party
  dst : Chan → Party

/-- How far the ends of the streams have come, for parties at these stages. -/
structure Streams.Paced (net : Streams Party Chan) (due : Chan → Nat → Nat) (stage : Party → Nat)
    (sent rcvd : Chan → Nat) : Prop where
  sent_low : ∀ chan, due chan (stage (net.src chan)) ≤ sent chan
  rcvd_low : ∀ chan, due chan (stage (net.dst chan)) ≤ rcvd chan

variable {Party Chan : Type} {net : Streams Party Chan} {sent rcvd : Chan → Nat}

/-- While a party is unfinished, one has moved all that is due in its stage, or something can
be sent, or something can be received. -/
theorem Streams.Paced.exists_step [Finite Party] (paced : net.Paced due stage sent rcvd)
    (mono : ∀ chan, Monotone (due chan)) (room : 0 < capacity) (unfinished : stage party < last) :
    (∃ p, stage p < last ∧ (∀ chan, net.src chan = p → due chan (stage p + 1) ≤ sent chan) ∧
      ∀ chan, net.dst chan = p → due chan (stage p + 1) ≤ rcvd chan) ∨
    (∃ chan, stage (net.src chan) < last ∧ sent chan < due chan (stage (net.src chan) + 1) ∧
      sent chan < rcvd chan + capacity) ∨
    (∃ chan, stage (net.dst chan) < last ∧ rcvd chan < due chan (stage (net.dst chan) + 1) ∧
      rcvd chan < sent chan) := by
  -- a party of the lowest stage waits for nobody behind it
  have : Nonempty Party := ⟨party⟩
  obtain ⟨p, least⟩ := Finite.exists_min stage
  have behind := lt_of_le_of_lt (least party) unfinished
  have level {chan q count} (low : due chan (stage q) ≤ count) (missing : count < due chan (stage p + 1)) :
      stage q = stage p := by
    by_contra differ
    have later : stage p + 1 ≤ stage q := Nat.lt_of_le_of_ne (least q) (Ne.symm differ)
    have := le_trans (mono chan later) low
    omega
  by_cases sends : ∀ chan, net.src chan = p → due chan (stage p + 1) ≤ sent chan
  · by_cases recvs : ∀ chan, net.dst chan = p → due chan (stage p + 1) ≤ rcvd chan
    · exact .inl ⟨p, behind, sends, recvs⟩
    · obtain ⟨chan, rfl, missing⟩ : ∃ chan, net.dst chan = p ∧ rcvd chan < due chan (stage p + 1) := by
        simpa using recvs
      by_cases waiting : rcvd chan < sent chan
      · exact .inr (.inr ⟨chan, behind, missing, waiting⟩)
      · -- nothing is in the stream, so its sender is in the same stage and has not sent it
        have level := level (paced.sent_low chan) (by omega)
        exact .inr (.inl ⟨chan, level ▸ behind, by rw [level]; omega, by omega⟩)
  · obtain ⟨chan, rfl, missing⟩ : ∃ chan, net.src chan = p ∧ sent chan < due chan (stage p + 1) := by
      simpa using sends
    by_cases fits : sent chan < rcvd chan + capacity
    · exact .inr (.inl ⟨chan, behind, missing, fits⟩)
    · have level := level (paced.rcvd_low chan) (by omega)
      exact .inr (.inr ⟨chan, level ▸ behind, by rw [level]; omega, by omega⟩)

/-- The streams hold what was sent and has not been received, and each element is right for
its place. -/
structure Carries (right : Chan → Nat → α → Prop) (sent rcvd : Chan → Nat) (content : Chan → List α) : Prop where
  length : ∀ chan, sent chan = rcvd chan + (content chan).length
  right : ∀ chan (i : Nat) x, (content chan)[i]? = some x → right chan (rcvd chan + i) x

namespace Carries
variable {right : Chan → Nat → α → Prop} [DecidableEq Chan]

theorem append (carries : Carries right sent rcvd content) (chan : Chan) (list : List α)
    (sends : ∀ c, sent' c = sent c + if c = chan then list.length else 0) (recvs : ∀ c, rcvd' c = rcvd c)
    (new : ∀ (i : Nat) x, list[i]? = some x → right chan (sent chan + i) x) :
    Carries right sent' rcvd' (update content chan (content chan ++ list)) := by
  obtain rfl : rcvd' = rcvd := funext recvs
  refine ⟨(forall_update_iff content fun c xs => sent' c = rcvd' c + xs.length).mpr ⟨?_, fun c other => ?_⟩,
    fun c i x there => ?_⟩
  · rw [sends, if_pos rfl, carries.length, List.length_append, add_assoc]
  · rw [sends, if_neg other, carries.length, add_zero]
  · by_cases here : c = chan
    · subst here
      rw [update_self] at there
      rcases lt_or_ge i (content c).length with old | behind
      · rw [List.getElem?_append_left old] at there
        exact carries.right c i x there
      · rw [List.getElem?_append_right behind] at there
        have := new _ x there
        rwa [carries.length, add_assoc, Nat.add_sub_cancel' behind] at this
    · rw [update_of_ne here] at there
      exact carries.right c i x there

theorem drop (carries : Carries right sent rcvd content) (chan : Chan) (count : Nat)
    (within : count ≤ (content chan).length) (sends : ∀ c, sent' c = sent c)
    (recvs : ∀ c, rcvd' c = rcvd c + if c = chan then count else 0) :
    Carries right sent' rcvd' (update content chan ((content chan).drop count)) := by
  obtain rfl : sent' = sent := funext sends
  refine ⟨(forall_update_iff content fun c xs => sent' c = rcvd' c + xs.length).mpr ⟨?_, fun c other => ?_⟩,
    fun c i x there => ?_⟩
  · rw [recvs, if_pos rfl, carries.length, List.length_drop]
    omega
  · rw [recvs, if_neg other, carries.length, add_zero]
  · rw [recvs]
    by_cases here : c = chan
    · subst here
      rw [update_self, List.getElem?_drop] at there
      rw [if_pos rfl, add_assoc]
      exact carries.right c _ x there
    · rw [update_of_ne here] at there
      rw [if_neg here]
      exact carries.right c i x there

end Carries
end NcclCore.Lib
