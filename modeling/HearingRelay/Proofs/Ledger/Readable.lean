import HearingRelay.Proofs.Ledger.Age

/-!
Hearings that can be read as a whole. The rows of a hearing are read all or
none. A call that counts no failure leaves a hearing readable, if the clock
shows a date in range and a row that is added can be read itself.
-/

namespace HearingRelay

/-- What it takes to read a row. -/
theorem Row.exists_read_iff {row : Row} : (∃ a, row.read = .ok a) ↔ row.Legible ∧
    Bounds.fitsInt32 row.version = true ∧ Bounds.fitsInt32 row.retryCount = true := by
  constructor
  · rintro ⟨a, ha⟩
    have hshows := shows_of_read ha
    obtain ⟨hsubmitted, _, htried⟩ := dates_of_check (check_of_read ha)
    have hlegible : row.Legible := ⟨⟨a.eventType, hshows.eventType.symm⟩,
      ⟨a.status, (hshows.is_iff a.status).mpr rfl⟩, hsubmitted, htried⟩
    exact ⟨hlegible, hlegible.exists_read_iff.mp ⟨a, ha⟩⟩
  · rintro ⟨hlegible, hfits⟩
    exact hlegible.exists_read_iff.mpr hfits

namespace Ledger

def Readable (l : Ledger) (hearing : Int) : Prop :=
  ∀ row ∈ l.rows, row.hearing = hearing → ∃ a, row.read = .ok a

theorem readable_iff {l : Ledger} {hearing : Int} :
    l.Readable hearing ↔ ∃ rs, l.findByHearing hearing = .ok rs := by
  constructor
  · intro h
    refine Row.exists_readAll fun row hrow => ?_
    obtain ⟨hmem, hhearing⟩ := mem_byVersion.mp hrow
    exact h row hmem hhearing
  · rintro ⟨rs, hrs⟩ row hrow hhearing
    obtain ⟨a, _, ha⟩ := Row.exists_request_of_readAll hrs (mem_byVersion.mpr ⟨hrow, hhearing⟩)
    exact ⟨a, ha⟩

theorem step_readable {l : Ledger} (hinc : l.IdsIncrease) {now : Int} (hnow : Time.Dated now)
    {c : StoreCall} (hc : c.frees = false) (hadded : ∀ q ∈ l.added now c, ∃ a, q.read = .ok a)
    {hearing : Int} (h : l.Readable hearing) : (l.step now c).1.Readable hearing := by
  intro q hq hhearing
  rcases (mem_step_rows hinc).mp hq with ⟨r, hr, hpass⟩ | hnew
  · have hpassage := passage_of_rowAfter hpass
    have hevent := hpassage.sameEvent
    obtain ⟨hlegible, hversion, hretry⟩ :=
      Row.exists_read_iff.mp (h r hr (hevent.hearing.symm.trans hhearing))
    have hle := hpassage.retryCount_le
    rw [hc] at hle
    have hsame : q.retryCount = r.retryCount :=
      Int.le_antisymm (by simpa using hle) hpassage.ages.retryCount_le
    refine Row.exists_read_iff.mpr ⟨hpassage.legible hlegible hnow, ?_, ?_⟩
    · rw [hevent.version]
      exact hversion
    · rw [hsame]
      exact hretry
  · exact hadded q hnew

end Ledger

end HearingRelay
