import Natc.Allim.Shared

/-!
# What the library leaves alone

The log and the way to the point change the two locks and the process's own data, and nothing else
of the state.
-/

namespace Natc.Allim.Shared

open Lib

/-- A part of the state in which neither the locks are nor the process's own data. -/
def Aside {γ : Type} (part : State → γ) : Prop :=
  ∀ (s : State) (mLock mLogLock : Bool) (process : Process),
    part ⟨{ s.region with mLock, mLogLock }, process⟩ = part s

variable {γ : Type} {part : State → γ} (h : Aside part)

include h

theorem keeps_unlockLog (aPoint : Bool) : Prog.Keeps part (unlockLog aPoint) := by
  apply Prog.Keeps.update
  intro s
  cases aPoint with
  | false => rfl
  | true => exact h s s.region.mLock false s.process

theorem keeps_lockLog (aPoint : Bool) : Prog.Keeps part (lockLog aPoint) := by
  intro s
  unfold lockLog
  cases aPoint with
  | false => rfl
  | true =>
    show Ending.Safe _ (if s.region.mLogLock = true then _ else _)
    split
    · trivial
    · exact h s s.region.mLock true s.process

theorem keeps_openLog (r : FileReplies) : Prog.Keeps part (allimOpenLog r) := by
  refine .look fun s => .ite (.pure _) (.ite (.pure _) (.ite (.pure _) ?_))
  refine .andThen (.update fun s => ?_) fun _ => .pure _
  exact h s s.region.mLock s.region.mLogLock _

theorem keeps_logWrite (aPoint : Bool) (r : FileReplies) :
    Prog.Keeps part (allimLogWrite aPoint r) := by
  refine .ite (.pure _) (.andThen (keeps_lockLog h aPoint) fun _ => ?_)
  refine .andThen (keeps_openLog h r) fun _ => .ite ?_ (.ite (.pure _) (.ite ?_ ?_))
  · exact .andThen (keeps_unlockLog h aPoint) fun _ => .pure _
  · exact .andThen (keeps_unlockLog h aPoint) fun _ => .pure _
  · exact .andThen (.pure _) fun _ => .andThen (keeps_unlockLog h aPoint) fun _ => .pure _

theorem keeps_logged (aPoint : Bool) (r : FileReplies) (sRC : AcpRc) :
    Prog.Keeps part (allimLogWrite aPoint r >>= fun _ => pure sRC) :=
  .andThen (keeps_logWrite h aPoint r) fun _ => .pure _

theorem keeps_logWhen (flag : Region → Int) (r : FileReplies) :
    Prog.Keeps part (logWhen flag r) :=
  .look fun _ => .ite (.andThen (keeps_logWrite h true r) fun _ => .pure _) (.pure _)

theorem keeps_getSharedMemory (r : Replies) : Prog.Keeps part (allimGetSharedMemory r) := by
  refine .look fun s => .ite ?_ (.ite (keeps_logged h _ _ _) (.pure _))
  refine .ite (.pure _) (.ite (keeps_logged h _ _ _) (.ite (keeps_logged h _ _ _) ?_))
  refine .ite (keeps_logged h _ _ _) (.andThen (.update fun s => ?_) fun _ => ?_)
  · exact h s s.region.mLock s.region.mLogLock _
  · exact .ite (keeps_logged h _ _ _) (.pure _)

/-- A call around the point is safe when its body is, wherever the lock is free. -/
theorem withPoint_safe {α : Type} {r : Replies} {unset : α} {body : LibProg (AcpRc × α)}
    {Q : AcpRc × α → State → Prop} {s : State}
    (hbody : ∀ t, part t = part s → (body t).Safe fun out u =>
      ∀ u', part u' = part u → (out.1 ≠ .success → Q out u') ∧
        (out.1 = .success → Q (r.acpShmDetach, out.2) u'))
    (hfail : ∀ sRC t, sRC ≠ .success → Q (sRC, unset) t) :
    (withPoint r unset body s).Safe Q := by
  unfold withPoint
  rw [Prog.safe_bind_iff]
  refine (keeps_getSharedMemory h r s).mono fun sRC t ht => ?_
  by_cases hrc : sRC = .success
  · rw [if_neg (not_not_intro hrc), Prog.safe_bind_iff]
    unfold lockLock
    dsimp only
    by_cases hlock : t.region.mLock = true
    · rw [if_pos hlock]
      trivial
    · rw [if_neg hlock]
      have hlocked : part { t with region := { t.region with mLock := true } } = part s :=
        (h t true t.region.mLogLock t.process).trans ht
      show Ending.Safe Q ((body >>= _) { t with region := { t.region with mLock := true } })
      rw [Prog.safe_bind_iff]
      refine (hbody _ hlocked).mono fun out u hu => ?_
      obtain ⟨hother, hsuccess⟩ :=
        hu { u with region := { u.region with mLock := false } }
          (h u false u.region.mLogLock u.process)
      show Ending.Safe Q ((if out.1 ≠ .success then pure out
        else pure (r.acpShmDetach, out.2) : LibProg _) _)
      by_cases hout : out.1 = .success
      · rw [if_neg (not_not_intro hout)]
        exact hsuccess hout
      · rw [if_pos hout]
        exact hother hout
  · rw [if_pos hrc]
    exact hfail sRC t hrc

end Natc.Allim.Shared
