/-
  Agave.Svm.Fees

  What a batch takes from the store: the fees, and nothing else.

  The fee is taken from the loaded payer before the execution, and the sum check runs over the
  loaded accounts, of which only those that are writable, touched and not only invoked are written.
  An account that is not written is as it was loaded, so the sum over the written ones is what the
  store held under their keys, less the fee (`total_committed`).  A transaction that fails writes
  the charged payer and the advanced nonce (`total_rolledBack`).
-/

import Agave.Svm.Execution
import Mathlib.Algebra.BigOperators.Group.Finset.Piecewise

namespace Agave.Svm

open Agave.Lib Function List Store

/-! ## The lamports of a store -/

/-- The lamports a store holds under a key. -/
def Store.lamportsAt (store : Store) (key : Pubkey) : Nat :=
  ((store key).map Account.lamports).getD 0

/-- The lamports of all accounts. -/
def Store.totalLamports (store : Store) : Nat := ∑ key : Pubkey, store.lamportsAt key

theorem Store.lamportsAt_update (store : Store) (key : Pubkey) (account : Account) :
    lamportsAt (update store key (some account)) =
      update store.lamportsAt key account.lamports := by
  funext other
  by_cases hother : other = key
  · subst hother
    rw [lamportsAt, update_self, update_self]
    rfl
  · rw [lamportsAt, update_of_ne hother, update_of_ne hother, lamportsAt]

theorem Store.totalLamports_update (store : Store) (key : Pubkey) (account : Account) :
    totalLamports (update store key (some account)) + store.lamportsAt key =
      store.totalLamports + account.lamports := by
  unfold totalLamports
  rw [lamportsAt_update, Finset.sum_update_of_mem (Finset.mem_univ key),
    ← Finset.add_sum_erase Finset.univ store.lamportsAt (Finset.mem_univ key),
    Finset.sdiff_singleton_eq_erase]
  omega

variable {key : Pubkey} {account charged payer : Account} {pre post accounts : List KeyedAccount}
  {results : List ProcessingResult} {store : Store} {ext : Externals} {tx : SVMMessage}
  {loaded : LoadedTransaction} {m : MessageProcessor} {env : Environment} {w : Nat → Bool}
  {checked : CheckedTransactionDetails} {nonce : Option NonceInfo} {p : Processor}

theorem Store.lamportsAt_of_view (h : store.getAccountSharedData key = some account) :
    store.lamportsAt key = account.lamports := by
  rw [lamportsAt, eq_of_view h]
  rfl

theorem Store.lamportsAt_of_absent (h : store.getAccountSharedData key = none) :
    store.lamportsAt key = 0 := by
  cases hstored : store key with
  | none =>
    rw [lamportsAt, hstored]
    rfl
  | some account =>
    rw [getAccountSharedData, hstored, Option.bind_some, Account.alive] at h
    rw [lamportsAt, hstored]
    split at h
    · assumption
    · cases h

/-- The lamports of a list of accounts. -/
def lamportsOf (accounts : List KeyedAccount) : Nat := (accounts.map fun e => e.2.lamports).sum

/-- The lamports the store held under the keys of a list. -/
def Store.lamportsUnder (store : Store) (keys : List Pubkey) : Nat :=
  (keys.map store.lamportsAt).sum

theorem Store.totalLamports_writeAll (store : Store) (hnodup : (accounts.map Prod.fst).Nodup) :
    (store.writeAll accounts).totalLamports + store.lamportsUnder (accounts.map Prod.fst) =
      store.totalLamports + lamportsOf accounts := by
  induction accounts generalizing store with
  | nil => rfl
  | cons entry accounts ih =>
    obtain ⟨hfresh, hnodup⟩ := nodup_cons.mp hnodup
    have ih := ih (update store entry.1 (some entry.2)) hnodup
    have hfirst := store.totalLamports_update entry.1 entry.2
    -- the first write does not show under the other keys
    have hothers : lamportsUnder (update store entry.1 (some entry.2))
        (accounts.map Prod.fst) = store.lamportsUnder (accounts.map Prod.fst) := by
      unfold lamportsUnder
      rw [lamportsAt_update]
      congr 1
      refine map_congr_left fun key hkey => ?_
      have hne : key ≠ entry.1 := fun heq => hfresh (heq ▸ hkey)
      exact update_of_ne hne _ _
    rw [hothers] at ih
    have hwrite : store.writeAll (entry :: accounts) =
        writeAll (update store entry.1 (some entry.2)) accounts := rfl
    simp only [hwrite, lamportsUnder, lamportsOf, map_cons, sum_cons] at ih ⊢
    omega

/-! ## The sum check -/

theorem foldlM_lamports {start sum : Nat} (hstart : start ≤ u128Max) :
    accounts.foldlM (fun sum entry =>
      if sum + entry.2.lamports ≤ u128Max then some (sum + entry.2.lamports) else none) start =
        some sum ↔ sum = start + lamportsOf accounts ∧ sum ≤ u128Max := by
  induction accounts generalizing start with
  | nil =>
    simp only [foldlM_nil, lamportsOf, map_nil, sum_nil, Option.pure_def, Option.some_inj]
    omega
  | cons entry accounts ih =>
    simp only [lamportsOf, map_cons, sum_cons] at ih ⊢
    rw [foldlM_cons]
    split
    · rename_i hfits
      rw [Option.bind_eq_bind, Option.bind_some, ih hfits, Nat.add_assoc]
    · refine ⟨fun h => (nomatch h), fun h => ?_⟩
      omega

/-- A transaction has at most 256 accounts, each of which holds a `u64`. -/
theorem lamportsOf_le (hlength : accounts.length ≤ 256)
    (h : ∀ entry ∈ accounts, entry.2.lamports ≤ u64Max) : lamportsOf accounts ≤ u128Max := by
  have hsum : lamportsOf accounts ≤ accounts.length * u64Max := by
    clear hlength
    induction accounts with
    | nil => exact Nat.zero_le _
    | cons entry accounts ih =>
      obtain ⟨hfirst, hothers⟩ := forall_mem_cons.mp h
      have ih := ih hothers
      simp only [lamportsOf, map_cons, sum_cons, length_cons, Nat.succ_mul] at ih ⊢
      omega
  calc lamportsOf accounts
      ≤ accounts.length * u64Max := hsum
    _ ≤ 256 * u64Max := Nat.mul_le_mul_right _ hlength
    _ ≤ u128Max := by decide

theorem lamportsOf_executed (h : (m.execute ext env tx loaded).status = .ok ())
    (hfits : lamportsOf loaded.accounts ≤ u128Max) :
    lamportsOf (m.processMessage tx loaded).accounts = lamportsOf loaded.accounts := by
  have hsum := (status_eq_ok h).2
  have hbefore : transactionAccountsLamportsSum loaded.accounts =
      some (lamportsOf loaded.accounts) := by
    exact (foldlM_lamports (Nat.zero_le _)).mpr ⟨(Nat.zero_add _).symm, hfits⟩
  rw [hbefore, Option.getD_some] at hsum
  have hafter := (foldlM_lamports (Nat.zero_le _)).mp hsum
  omega

/-! ## What is written and what is not -/

/-- An execution changes only accounts that are passed to an instruction as writable, flags what it
    changes, and leaves balances that are `u64`. -/
structure Confined (m : MessageProcessor) : Prop where
  changed : ∀ tx loaded i pre post, loaded.accounts[i]? = some pre →
    (m.processMessage tx loaded).accounts[i]? = some post → pre ≠ post →
      tx.isWritable i = true ∧ tx.isInstructionAccount i = true ∧
        (m.processMessage tx loaded).touchedFlags[i]? = some true
  flags : ∀ tx loaded, (m.processMessage tx loaded).touchedFlags.length =
    (m.processMessage tx loaded).accounts.length
  u64 : ∀ tx loaded, (∀ entry ∈ loaded.accounts, entry.2.lamports ≤ u64Max) →
    ∀ entry ∈ (m.processMessage tx loaded).accounts, entry.2.lamports ≤ u64Max

/-- Where the accounts that are not written hold the same, the written ones make the difference. -/
theorem lamportsOf_writtenOf {indices : List Nat}
    (hpre : indices.length = pre.length) (hpost : indices.length = post.length)
    (hsame : ∀ entry ∈ indices.zip (pre.zip post), w entry.1 = false →
      entry.2.1.2.lamports = entry.2.2.2.lamports) :
    lamportsOf (writtenOf w indices post) + lamportsOf pre =
      lamportsOf (writtenOf w indices pre) + lamportsOf post := by
  induction indices generalizing pre post with
  | nil =>
    obtain rfl := length_eq_zero_iff.mp hpre.symm
    obtain rfl := length_eq_zero_iff.mp hpost.symm
    rfl
  | cons i indices ih =>
    cases pre with
    | nil => cases hpre
    | cons a pre =>
      cases post with
      | nil => cases hpost
      | cons b post =>
        obtain ⟨hfirst, hothers⟩ := forall_mem_cons.mp hsame
        have ih := ih (Nat.succ.inj hpre) (Nat.succ.inj hpost) hothers
        cases hw : w i with
        | true =>
          simp only [writtenOf, lamportsOf, zip_cons_cons, filter_cons, hw,
            if_true, map_cons, sum_cons] at ih ⊢
          omega
        | false =>
          have hfirst := hfirst hw
          simp only [writtenOf, lamportsOf, zip_cons_cons, filter_cons, hw,
            Bool.false_eq_true, if_false, map_cons, sum_cons] at hfirst ih ⊢
          omega

theorem keys_writtenOf (w : Nat → Bool) (indices : List Nat)
    (hkeys : post.map Prod.fst = pre.map Prod.fst) :
    (writtenOf w indices post).map Prod.fst = (writtenOf w indices pre).map Prod.fst := by
  induction indices generalizing pre post with
  | nil => rfl
  | cons i indices ih =>
    cases pre with
    | nil =>
      obtain rfl := map_eq_nil_iff.mp hkeys
      rfl
    | cons a pre =>
      cases post with
      | nil => cases hkeys
      | cons b post =>
        obtain ⟨hfirst, hrest⟩ := List.cons.inj hkeys
        have ih := ih hrest
        simp only [writtenOf, zip_cons_cons, filter_cons] at ih ⊢
        split
        · rw [map_cons, map_cons, map_cons, map_cons, ih, hfirst]
        · exact ih

theorem sublist_writtenOf (w : Nat → Bool) (indices : List Nat) (accounts : List KeyedAccount) :
    (writtenOf w indices accounts).Sublist accounts := by
  induction indices generalizing accounts with
  | nil => exact nil_sublist accounts
  | cons i indices ih =>
    cases accounts with
    | nil => exact List.Sublist.refl []
    | cons a accounts =>
      have ih := ih accounts
      simp only [writtenOf, zip_cons_cons, filter_cons] at ih ⊢
      split
      · exact ih.cons_cons a
      · exact ih.cons a

/-! ## A successful transaction -/

section Committed

theorem Validated.charged_lamports
    (h : Validated p store.getAccountSharedData tx checked payer charged nonce) :
    charged.lamports + checked.fee = store.lamportsAt tx.feePayer := by
  obtain ⟨hfee, halike⟩ := h.charged_alike
  have hlamports : charged.lamports = payer.lamports - checked.fee := halike.lamports
  rw [lamportsAt_of_view h.found, hlamports]
  omega

/-- A loaded account other than the payer and the sysvar holds what the store holds. -/
theorem LoadedFrom.lamports (h : LoadedFrom ext store.getAccountSharedData key account)
    (hkey : key ≠ ext.instructionsSysvar) : account.lamports = store.lamportsAt key := by
  cases h with
  | sysvar hsysvar _ => exact absurd hsysvar hkey
  | absent hview hlamports _ => rw [hlamports, lamportsAt_of_absent hview]
  | stored stored hview halike => rw [halike.lamports, lamportsAt_of_view hview]

/-- The written accounts, as they were loaded, hold what the store holds less the fee. -/
theorem lamportsOf_written_loaded (hsanitized : Sanitized p.ext tx)
    (hvalidated : Validated p store.getAccountSharedData tx checked payer charged nonce)
    (hloaded : AccountsLoaded p.ext store.getAccountSharedData tx charged accounts)
    (hpayer : w 0 = true) (hwritable : ∀ i, w i = true → tx.isWritable i = true) :
    lamportsOf (writtenOf w (List.range tx.accountKeys.length) accounts) + checked.fee =
      store.lamportsUnder
        ((writtenOf w (List.range tx.accountKeys.length) accounts).map Prod.fst) := by
  have hkeys := hloaded.keys hsanitized
  obtain ⟨others, rfl, hothers⟩ := hloaded
  have hlength : tx.accountKeys.length = others.length + 1 := by
    rw [← hkeys, length_map, length_cons]
  have hcons : writtenOf w (List.range tx.accountKeys.length) ((tx.feePayer, charged) :: others) =
      (tx.feePayer, charged) :: writtenOf w ((List.range others.length).map Nat.succ) others := by
    rw [hlength, range_succ_eq_map]
    simp only [writtenOf, zip_cons_cons, filter_cons, hpayer, if_true, map_cons]
  -- what is written besides the payer is neither absent from the store's view nor the sysvar
  have hrest : ∀ entry ∈ writtenOf w ((List.range others.length).map Nat.succ) others,
      entry.2.lamports = store.lamportsAt entry.1 := by
    intro entry hentry
    have hmem : entry ∈ writtenOf w (List.range tx.accountKeys.length)
        ((tx.feePayer, charged) :: others) := by
      rw [hcons]
      exact mem_cons_of_mem _ hentry
    obtain ⟨i, -, hw, hi⟩ := mem_writtenOf_range hmem
    have hkey : tx.accountKeys[i]? = some entry.1 := by
      rw [← hkeys, getElem?_map, hi]
      rfl
    have hne : entry.1 ≠ p.ext.instructionsSysvar := by
      intro heq
      rw [heq] at hkey
      have hreadonly := hsanitized.sysvarReadonly i hkey
      rw [hwritable i hw] at hreadonly
      cases hreadonly
    obtain ⟨key, -, rfl, hfrom⟩ :=
      exists_left_of_mem hothers ((sublist_writtenOf w _ others).subset hentry)
    exact hfrom.lamports hne
  have hcharged := hvalidated.charged_lamports
  have hsum : lamportsOf (writtenOf w ((List.range others.length).map Nat.succ) others) =
      store.lamportsUnder
        ((writtenOf w ((List.range others.length).map Nat.succ) others).map Prod.fst) := by
    rw [lamportsOf, lamportsUnder, map_map]
    exact congrArg List.sum (map_congr_left hrest)
  rw [hcons]
  simp only [lamportsOf, lamportsUnder, map_cons, sum_cons] at hsum ⊢
  omega

end Committed

section Executed

/-- The positions that a successful transaction writes. -/
def MessageProcessor.writes (m : MessageProcessor) (tx : SVMMessage) (loaded : LoadedTransaction) :
    Nat → Bool :=
  isWritten tx (markFeePayerTouched (m.processMessage tx loaded).touchedFlags)

theorem length_processMessage (m : MessageProcessor) (tx : SVMMessage)
    (loaded : LoadedTransaction) :
    (m.processMessage tx loaded).accounts.length = loaded.accounts.length := by
  simpa using congrArg List.length (m.keys_eq tx loaded)

theorem writes_of_changed (hm : Confined m) {i : Nat} {pre post : KeyedAccount}
    (hpre : loaded.accounts[i]? = some pre)
    (hpost : (m.processMessage tx loaded).accounts[i]? = some post) (hchanged : pre ≠ post) :
    m.writes tx loaded i = true := by
  obtain ⟨hwritable, hinstruction, htouched⟩ := hm.changed tx loaded i pre post hpre hpost hchanged
  simp [MessageProcessor.writes, isWritten, hwritable, hinstruction,
    markFeePayerTouched_of_touched htouched]

theorem writes_payer (hm : Confined m) (hsanitized : Sanitized ext tx)
    (hkeys : loaded.accounts.map Prod.fst = tx.accountKeys) : m.writes tx loaded 0 = true := by
  have hflags := hm.flags tx loaded
  rw [length_processMessage, ← length_map Prod.fst, hkeys] at hflags
  unfold MessageProcessor.writes
  cases htouched : (m.processMessage tx loaded).touchedFlags with
  | nil =>
    have hpayer := hsanitized.payer
    rw [htouched] at hflags
    rw [length_eq_zero_iff.mp hflags.symm] at hpayer
    cases hpayer
  | cons flag flags =>
    simp [isWritten, markFeePayerTouched, hsanitized.payerWritable, hsanitized.payerNotInvoked]

end Executed

theorem total_committed {config : Config} (hm : Confined m) (hsanitized : Sanitized ext tx)
    (hvalidated : Validated (m.processor ext env config) store.getAccountSharedData tx checked payer
      charged nonce)
    (hloaded : AccountsLoaded ext store.getAccountSharedData tx charged loaded.accounts)
    (hu64 : ∀ entry ∈ loaded.accounts, entry.2.lamports ≤ u64Max)
    (hstatus : (m.execute ext env tx loaded).status = .ok ())
    (hcollected : collectAccountsForSuccessfulTx tx (m.execute ext env tx loaded).accounts
      (markFeePayerTouched (m.execute ext env tx loaded).touchedFlags) = .ok accounts) :
    (store.writeAll accounts).totalLamports + checked.fee = store.totalLamports := by
  have hkeys : loaded.accounts.map Prod.fst = tx.accountKeys := hloaded.keys hsanitized
  have hlength : tx.accountKeys.length = loaded.accounts.length := by
    rw [← hkeys, length_map]
  obtain rfl : accounts = writtenOf (m.writes tx loaded) (List.range tx.accountKeys.length)
      (m.processMessage tx loaded).accounts :=
    collectAccountsForSuccessfulTx_eq hcollected
  have hsame : ∀ entry ∈ (List.range tx.accountKeys.length).zip
      (loaded.accounts.zip (m.processMessage tx loaded).accounts),
      m.writes tx loaded entry.1 = false → entry.2.1.2.lamports = entry.2.2.2.lamports := by
    rintro ⟨i, pre, post⟩ hentry hnot
    obtain ⟨-, hzip⟩ := getElem?_of_mem_range_zip hentry
    obtain ⟨hpre, hpost⟩ := getElem?_zip_eq_some.mp hzip
    by_cases hchanged : pre = post
    · rw [hchanged]
    · rw [writes_of_changed hm hpre hpost hchanged] at hnot
      cases hnot
  -- the written accounts hold in sum what they held when they were loaded
  have hbalance := lamportsOf_writtenOf (by rw [length_range, hlength])
    (by rw [length_range, hlength, length_processMessage]) hsame
  have hsum := lamportsOf_executed hstatus
    (lamportsOf_le (by rw [← hlength]; exact hsanitized.length_le) hu64)
  have hfee := lamportsOf_written_loaded hsanitized hvalidated hloaded
    (writes_payer hm hsanitized hkeys) (fun i hw => isWritable_of_isWritten hw)
  have hwritten := keys_writtenOf (m.writes tx loaded) (List.range tx.accountKeys.length)
    (m.keys_eq tx loaded)
  have hnodup : ((writtenOf (m.writes tx loaded) (List.range tx.accountKeys.length)
      loaded.accounts).map Prod.fst).Nodup := by
    refine List.Nodup.sublist ((sublist_writtenOf _ _ _).map Prod.fst) ?_
    rw [hkeys]
    exact hsanitized.nodup
  have hwrite := store.totalLamports_writeAll (hwritten ▸ hnodup)
  rw [hwritten] at hwrite
  omega

/-! ## A transaction that failed -/

/-- The payer lost the fee, the nonce was advanced, and no other account changed. -/
structure ChargedOnly (p : Processor) (tx : SVMMessage) (checked : CheckedTransactionDetails)
    (store after : Store) : Prop where
  payer : ∃ before now, store tx.feePayer = some before ∧ after tx.feePayer = some now ∧
    now.lamports + checked.fee = before.lamports ∧ now.owner = before.owner ∧
    now.executable = before.executable ∧
    (checked.nonceAddress ≠ some tx.feePayer → now.data = before.data)
  nonce : ∀ address, checked.nonceAddress = some address → ∃ before nonceData advanced now,
    store address = some before ∧
    p.ext.verifyNonceAccount before tx.recentBlockhash = some nonceData ∧
    p.ext.setNonceState before nonceData.authority
      (p.ext.durableNonceFromBlockhash p.env.blockhash) p.env.blockhashLamportsPerSignature =
        some advanced ∧
    after address = some now ∧ now.data = advanced.data ∧
    (address ≠ tx.feePayer → now.lamports = before.lamports)
  others : ∀ key, key ≠ tx.feePayer → checked.nonceAddress ≠ some key → after key = store key

section RolledBack

section

variable (hnonce : p.ext.SetStateKeepsSize)
  (hvalidated : Validated p store.getAccountSharedData tx checked payer charged nonce)
include hnonce hvalidated

/-- The fee is all that a rolled back transaction takes from the store. -/
theorem total_rolledBack {address : Option Pubkey}
    (h : RolledBack p store.getAccountSharedData tx payer charged address accounts) :
    (store.writeAll accounts).totalLamports + checked.fee = store.totalLamports := by
  have hcharged := hvalidated.charged_lamports
  cases h with
  | feePayerOnly =>
    have hwrite := store.totalLamports_update tx.feePayer
      { charged with rentEpoch := payer.rentEpoch }
    simp only [writeAll, foldl_cons, foldl_nil] at hwrite ⊢
    omega
  | same advanced nonceData hfound =>
    have hwrite := store.totalLamports_update tx.feePayer { charged with data := advanced.data }
    simp only [writeAll, foldl_cons, foldl_nil] at hwrite ⊢
    omega
  | separate nonce stored nonceData hfound hother =>
    have hlamports := (hnonce _ _ _ _ _ hfound.advanced).1
    have hnodup : ([(tx.feePayer, charged), (nonce.address, nonce.account)].map
        Prod.fst).Nodup := by
      simpa using hother
    have hwrite := store.totalLamports_writeAll hnodup
    simp only [lamportsUnder, lamportsOf, map_cons, map_nil, sum_cons,
      sum_nil, lamportsAt_of_view hfound.found, hlamports] at hwrite
    omega

theorem chargedOnly_rolledBack
    (h : RolledBack p store.getAccountSharedData tx payer charged checked.nonceAddress accounts) :
    ChargedOnly p tx checked store (store.writeAll accounts) := by
  obtain ⟨hfee, halike⟩ := hvalidated.charged_alike
  have hlamports : charged.lamports + checked.fee = payer.lamports := by
    have hlamports : charged.lamports = payer.lamports - checked.fee := halike.lamports
    omega
  have hpayer := eq_of_view hvalidated.found
  generalize haddress : checked.nonceAddress = address at h
  cases h with
  | feePayerOnly =>
    refine ⟨⟨payer, { charged with rentEpoch := payer.rentEpoch }, hpayer,
      update_self .., hlamports, halike.owner, halike.executable, fun _ => halike.data⟩,
      ?_, ?_⟩
    · intro address hnone
      rw [haddress] at hnone
      cases hnone
    · intro key hkey _
      exact update_of_ne hkey _ _
  | same advanced nonceData hfound =>
    refine ⟨⟨payer, { charged with data := advanced.data }, hpayer, update_self .., hlamports,
      halike.owner, halike.executable, fun hne => absurd haddress hne⟩, ?_, ?_⟩
    · intro address hsome
      obtain rfl : tx.feePayer = address := Option.some.inj (haddress.symm.trans hsome)
      exact ⟨payer, nonceData, advanced, { charged with data := advanced.data }, hpayer,
        hfound.verified, hfound.advanced, update_self .., rfl, fun hne => absurd rfl hne⟩
    · intro key hkey _
      exact update_of_ne hkey _ _
  | separate nonce stored nonceData hfound hother =>
    refine ⟨⟨payer, charged, hpayer, ?_, hlamports, halike.owner, halike.executable,
      fun _ => halike.data⟩, ?_, ?_⟩
    · refine (update_of_ne hother _ _).trans ?_
      exact update_self ..
    · intro address hsome
      obtain rfl : nonce.address = address := Option.some.inj (haddress.symm.trans hsome)
      exact ⟨stored, nonceData, nonce.account, nonce.account, eq_of_view hfound.found,
        hfound.verified, hfound.advanced, update_self .., rfl,
        fun _ => (hnonce _ _ _ _ _ hfound.advanced).1⟩
    · intro key hkey hne
      have hne : key ≠ nonce.address := by
        intro heq
        exact hne (by rw [haddress, heq])
      exact (update_of_ne hne _ _).trans (update_of_ne hkey _ _)

end

end RolledBack

/-! ## A batch -/

/-- What a transaction may do to the store, by its result. -/
def ChargedStep (p : Processor) (tx : SVMMessage) (check : CheckResult) (store after : Store) :
    ProcessingResult → Prop
  | .error _ => after = store
  | .ok processed =>
    after.totalLamports + processed.fee = store.totalLamports ∧
      (processed.wasSuccessful = false → ∃ checked, check = .ok checked ∧
        processed.fee = checked.fee ∧ ChargedOnly p tx checked store after)

/-- A batch that goes from store to store by such steps. -/
inductive ChargedRun (p : Processor) :
    Store → List (SVMMessage × CheckResult) → List ProcessingResult → Store → Prop where
  | nil (store : Store) : ChargedRun p store [] [] store
  | cons {store after final : Store} {tx : SVMMessage} {check : CheckResult}
      {result : ProcessingResult} {batch : List (SVMMessage × CheckResult)}
      {results : List ProcessingResult} (hstep : ChargedStep p tx check store after result)
      (hrest : ChargedRun p after batch results final) :
      ChargedRun p store ((tx, check) :: batch) (result :: results) final

/-- The total fee of a result. -/
def feeOf : ProcessingResult → Nat
  | .error _ => 0
  | .ok processed => processed.fee

variable {batch : List (SVMMessage × CheckResult)} {final : Store}

theorem ChargedRun.total (h : ChargedRun p store batch results final) :
    final.totalLamports + (results.map feeOf).sum = store.totalLamports := by
  induction h with
  | nil store => rw [map_nil, sum_nil, Nat.add_zero]
  | @cons store after final tx check result batch results hstep _ ih =>
    rw [map_cons, sum_cons]
    cases result with
    | error e =>
      rw [show after = store from hstep] at ih
      simp only [feeOf]
      omega
    | ok processed =>
      have hfee := hstep.1
      simp only [feeOf]
      omega

/-- The balances of a store are `u64`. -/
def Store.U64 (store : Store) : Prop := ∀ key, store.lamportsAt key ≤ u64Max

theorem Store.U64.writeAll (h : store.U64)
    (haccounts : ∀ entry ∈ accounts, entry.2.lamports ≤ u64Max) : (store.writeAll accounts).U64 := by
  intro key
  rcases store.writeAll_cases accounts key with ⟨entry, hentry, -, hwritten⟩ | ⟨-, hkept⟩
  · rw [lamportsAt, hwritten]
    exact haccounts entry hentry
  · rw [lamportsAt, hkept]
    exact h key

section U64

variable (hstore : store.U64)
  (hvalidated : Validated p store.getAccountSharedData tx checked payer charged nonce)

include hstore hvalidated

theorem u64_charged : charged.lamports ≤ u64Max := by
  have hcharged := hvalidated.charged_lamports
  have hpayer := hstore tx.feePayer
  omega

theorem u64_loaded (hloaded : AccountsLoaded p.ext store.getAccountSharedData tx charged accounts) :
    ∀ entry ∈ accounts, entry.2.lamports ≤ u64Max := by
  obtain ⟨others, rfl, hothers⟩ := hloaded
  refine forall_mem_cons.mpr ⟨u64_charged hstore hvalidated, ?_⟩
  intro entry hentry
  obtain ⟨key, -, -, hfrom⟩ := exists_left_of_mem hothers hentry
  cases hfrom with
  | sysvar _ hlamports => exact hlamports ▸ Nat.zero_le _
  | absent _ hlamports _ => exact hlamports ▸ Nat.zero_le _
  | stored stored hview halike =>
    rw [halike.lamports, ← lamportsAt_of_view hview]
    exact hstore key

theorem u64_rollback (hnonce : p.ext.SetStateKeepsSize) {address : Option Pubkey}
    (h : RolledBack p store.getAccountSharedData tx payer charged address accounts) :
    ∀ entry ∈ accounts, entry.2.lamports ≤ u64Max := by
  have hcharged := u64_charged hstore hvalidated
  cases h with
  | feePayerOnly => exact forall_mem_singleton.mpr hcharged
  | same advanced nonceData hfound => exact forall_mem_singleton.mpr hcharged
  | separate nonce stored nonceData hfound hother =>
    have hlamports := (hnonce _ _ _ _ _ hfound.advanced).1
    have hstored := hstore nonce.address
    rw [lamportsAt_of_view hfound.found, ← hlamports] at hstored
    exact forall_mem_cons.mpr ⟨hcharged, forall_mem_singleton.mpr hstored⟩

end U64

section Batch

variable {config : Config} (hm : Confined m) (hnonce : ext.SetStateKeepsSize)

include hm hnonce

theorem chargedStep_of_processed {check : CheckResult}
    {result : ProcessingResult} (hstore : store.U64) (hsanitized : Sanitized ext tx)
    (h : Processed (m.processor ext env config) store.getAccountSharedData tx check result
      accounts) :
    ChargedStep (m.processor ext env config) tx check store (store.writeAll accounts) result ∧
      ∀ entry ∈ accounts, entry.2.lamports ≤ u64Max := by
  cases h with
  | dropped e => exact ⟨rfl, forall_mem_nil _⟩
  | rolledBack checked payer charged nonce processed hcheck hvalidated _ hfee =>
    have hrolledBack := hvalidated.rolledBack
    refine ⟨⟨?_, fun _ => ⟨checked, hcheck, hfee,
      chargedOnly_rolledBack hnonce hvalidated hrolledBack⟩⟩,
      u64_rollback hstore hvalidated hnonce hrolledBack⟩
    rw [hfee]
    exact total_rolledBack hnonce hvalidated hrolledBack
  | committed checked payer charged nonce loaded accounts hcheck hvalidated hloaded hfee hstatus
      hcollected =>
    have hu64 := u64_loaded hstore hvalidated hloaded
    refine ⟨⟨?_, ?_⟩, ?_⟩
    · rw [show ProcessedTransaction.fee (.executed
        ((m.processor ext env config).executeLoadedTransaction tx loaded)) = checked.fee from hfee]
      exact total_committed hm hsanitized hvalidated hloaded hu64 hstatus hcollected
    · intro hfailed
      have hsucceeded : (m.execute ext env tx loaded).status.toBool = false := hfailed
      rw [show (m.execute ext env tx loaded).status = .ok () from hstatus] at hsucceeded
      cases hsucceeded
    · rw [collectAccountsForSuccessfulTx_eq hcollected]
      intro entry hentry
      exact hm.u64 tx loaded hu64 entry ((sublist_writtenOf _ _ _).subset hentry)

theorem Trace.chargedRun
    (h : Trace (m.processor ext env config) store batch results final) (hstore : store.U64)
    (hsanitized : ∀ entry ∈ batch, Sanitized ext entry.1) :
    ChargedRun (m.processor ext env config) store batch results final := by
  induction h with
  | nil store => exact .nil store
  | cons hfirst _ ih =>
    obtain ⟨hfirstOk, hothers⟩ := forall_mem_cons.mp hsanitized
    obtain ⟨hstep, hu64⟩ := chargedStep_of_processed hm hnonce hstore hfirstOk hfirst
    exact .cons hstep (ih (hstore.writeAll hu64) hothers)

end Batch

/-- A batch goes from store to store by steps that take the fee of the transaction and, if it
    failed, change nothing but the fee payer and the nonce; over the whole batch the store loses
    exactly the fees. -/
theorem fees_charged_exactly_once (m : MessageProcessor) (ext : Externals) (env : Environment)
    (config : Config) (hm : Confined m) (hnonce : ext.SetStateKeepsSize) {store final : Store}
    {batch : List (SVMMessage × CheckResult)} {results : List ProcessingResult}
    (hstore : store.U64) (hsanitized : ∀ entry ∈ batch, Sanitized ext entry.1)
    (hrun : (m.processor ext env config).runBatch store batch = .ok (results, final)) :
    ChargedRun (m.processor ext env config) store batch results final ∧
      final.totalLamports + (results.map feeOf).sum = store.totalLamports := by
  have hcharged := (runBatch_trace hrun).chargedRun hm hnonce hstore hsanitized
  exact ⟨hcharged, hcharged.total⟩

theorem confined_transferring : Confined transferring where
  changed := by
    intro tx loaded i pre post hpre hpost hchanged
    have hpost : (loaded.accounts.mapIdx (transferred tx))[i]? = some post := hpost
    rw [getElem?_mapIdx, hpre, Option.map_some, Option.some_inj] at hpost
    by_cases hpassed : tx.isWritable i && tx.isInstructionAccount i
    · obtain ⟨hwritable, hinstruction⟩ := Bool.and_eq_true_iff.mp hpassed
      refine ⟨hwritable, hinstruction, ?_⟩
      change (loaded.accounts.map fun _ => true)[i]? = some true
      rw [getElem?_map, hpre]
      rfl
    · rw [transferred, if_neg hpassed] at hpost
      exact absurd hpost hchanged
  flags := by
    intro tx loaded
    change (loaded.accounts.map fun _ => true).length =
      (loaded.accounts.mapIdx (transferred tx)).length
    rw [length_map, length_mapIdx]
  u64 := by
    intro tx loaded hu64 entry hentry
    obtain ⟨i, hi, rfl⟩ := mem_mapIdx.mp hentry
    have hbefore := hu64 _ (getElem_mem hi)
    unfold transferred
    split
    · split
      · exact Nat.le_trans (Nat.sub_le _ _) hbefore
      · exact Nat.min_le_right _ _
    · exact hbefore

theorem sanitized_drain : Sanitized rentExternals drain where
  payer := rfl
  nodup := by decide
  length_le := by decide
  payerWritable := rfl
  payerNotInvoked := rfl
  sysvarReadonly := by
    intro i hi
    have hmem : rentExternals.instructionsSysvar ∈ drain.accountKeys := mem_of_getElem? hi
    exact absurd hmem (by decide)

/-- The first transfer succeeds and the second one fails; each of them pays its fee of 5. -/
theorem fees_charged_transferring : ∃ results final,
    (transferring.processor rentExternals (drainingProcessor false).env
      (drainingProcessor false).config).runBatch fundedStore drainTwice = .ok (results, final) ∧
    results.map feeOf = [5, 5] ∧ final.totalLamports + 10 = fundedStore.totalLamports := by
  have hsome : ((transferring.processor rentExternals (drainingProcessor false).env
      (drainingProcessor false).config).runBatch fundedStore drainTwice).toOption.map
        (fun r => r.1.map feeOf) = some [5, 5] := by
    decide +kernel
  have hstore : fundedStore.U64 := by
    intro key
    unfold fundedStore
    rw [lamportsAt_update]
    by_cases hkey : key = 1
    · rw [hkey, update_self]
      decide
    · rw [update_of_ne hkey]
      exact Nat.zero_le _
  have hsanitized : ∀ entry ∈ drainTwice, Sanitized rentExternals entry.1 := by
    intro entry hentry
    rw [eq_of_mem_replicate hentry]
    exact sanitized_drain
  obtain ⟨r, hrun, hfees⟩ := exists_ok_of_map hsome
  have htotal := (fees_charged_exactly_once transferring rentExternals _ _ confined_transferring
    (by rintro account _ _ _ after h; cases h; exact ⟨rfl, rfl⟩) hstore hsanitized hrun).2
  rw [hfees] at htotal
  exact ⟨r.1, r.2, hrun, hfees, htotal⟩

end Agave.Svm

