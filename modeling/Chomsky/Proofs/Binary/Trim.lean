import Chomsky.Proofs.Binary.Normal
import Chomsky.Proofs.Trim

/-!
# Folding adds no useless symbol

A folded production leads to all that the production itself leads to, through the symbols of its
blocks and through proxies, and a fresh symbol derives a word because all symbols that it stands
for do. Folding therefore keeps a grammar trim.
-/

namespace Chomsky.Grammar

open Binary

variable {g : Grammar} {p : Production} {s : Symbol} {n m : NonTerminal} {t : Terminal}
  {form block : List Symbol}

/-! ## The three kinds of productions -/

/-- Every production is there in its folded form. -/
theorem folded_mem_binarized (rule : p ∈ g.productions) :
    ⟨p.left, fold g.blockTable (isolate g.proxyTable p.right)⟩ ∈ g.binarized.productions :=
  mem_binarized_iff.mpr (mem_binaryRules_iff.mpr (.inl ⟨p, rule, rfl⟩))

/-- Every proxy has its production. -/
theorem proxyRule_mem_binarized (entry : (t, n) ∈ g.proxyTable) :
    ⟨n, [.terminal t]⟩ ∈ g.binarized.productions :=
  mem_binarized_iff.mpr (mem_binaryRules_iff.mpr (.inr (.inl ⟨t, n, entry, rfl⟩)))

/-- Every block symbol has its production. -/
theorem blockRule_mem_binarized (entry : (block, n) ∈ g.blockTable) :
    ⟨n, fold g.blockTable block⟩ ∈ g.binarized.productions :=
  mem_binarized_iff.mpr (mem_binaryRules_iff.mpr (.inr (.inr ⟨block, n, entry, rfl⟩)))

/-! ## Reaching the symbols of a folded form -/

/-- A symbol with a folded form leads to all symbols of the form. -/
theorem mem_accessible_of_mem_form (rule : ⟨n, fold g.blockTable form⟩ ∈ g.binarized.productions)
    (left : .nonTerminal n ∈ g.binarized.accessible) (member : s ∈ form) :
    s ∈ g.binarized.accessible := by
  induction form using List.reverseRecOn generalizing n with
  | nil => simp at member
  | append_singleton earlier last inductionHypothesis =>
    rcases fold_cases g.blockTable (earlier ++ [last]) with
      same | ⟨block, m, final, entry, shape, folded⟩
    · rw [same] at rule
      exact mem_accessible_of_mem_right rule left member
    · obtain ⟨rfl, sameLast⟩ := List.append_inj' shape rfl
      rw [folded, ← List.singleton_inj.mp sameLast] at rule
      rcases List.mem_append.mp member with inside | isLast
      · have inner : .nonTerminal m ∈ g.binarized.accessible :=
          mem_accessible_of_mem_right rule left List.mem_cons_self
        exact inductionHypothesis (blockRule_mem_binarized entry) inner inside
      · exact mem_accessible_of_mem_right rule left (List.mem_cons_of_mem _ isLast)

/-- A symbol with a folded form leads to the symbols of all blocks of the form. -/
theorem block_mem_accessible (rule : ⟨n, fold g.blockTable form⟩ ∈ g.binarized.productions)
    (left : .nonTerminal n ∈ g.binarized.accessible)
    (keys : ∀ block ∈ blocks form, block ∈ g.blockTable.map Prod.fst)
    (member : block ∈ blocks form) (entry : (block, m) ∈ g.blockTable) :
    .nonTerminal m ∈ g.binarized.accessible := by
  induction form using List.reverseRecOn generalizing n with
  | nil => simp [blocks] at member
  | append_singleton earlier last inductionHypothesis =>
    obtain ⟨size, lower, upper, -⟩ := mem_blocks_iff.mp member
    have long : 2 < (earlier ++ [last]).length := by omega
    obtain ⟨k, final, largest, -, folded⟩ :=
      fold_of_mem_keys long (keys _ (dropLast_mem_blocks long))
    rw [List.dropLast_concat] at largest
    rw [folded] at rule
    have inner : .nonTerminal k ∈ g.binarized.accessible :=
      mem_accessible_of_mem_right rule left List.mem_cons_self
    rcases mem_blocks_append_singleton_iff.mp member with smaller | ⟨-, rfl⟩
    · exact inductionHypothesis (blockRule_mem_binarized largest) inner
        (fun block inside => keys block (mem_blocks_append_singleton_iff.mpr (.inl inside))) smaller
    · rwa [g.freshTable_blockTable.symbol_unique (nodup_eraseDups _) entry largest]

/-- Behind a form with isolated terminals stand the symbols of the form itself. -/
theorem mem_accessible_of_isolate
    (isolated : ∀ s ∈ isolate g.proxyTable form, s ∈ g.binarized.accessible) (member : s ∈ form) :
    s ∈ g.binarized.accessible := by
  by_cases long : 1 < form.length
  · rw [isolate_of_lt_length long] at isolated
    have new := isolated _ (List.mem_map_of_mem member)
    cases s with
    | nonTerminal m => exact new
    | terminal t =>
      rcases isolateSymbol_terminal_cases g.proxyTable t with ⟨m, entry, proxy⟩ | same
      · rw [proxy] at new
        exact mem_accessible_of_mem_right (proxyRule_mem_binarized entry) new List.mem_cons_self
      · rwa [same] at new
  · rw [isolate_of_length_le (by omega)] at isolated
    exact isolated s member

/-- What is accessible stays so after folding. -/
theorem mem_accessible_binarized (accessible : s ∈ g.accessible) : s ∈ g.binarized.accessible := by
  induction accessible using accessible_induction with
  | start => exact start_mem_accessible
  | rule p rule _ left s member =>
    exact mem_accessible_of_isolate
      (fun s => mem_accessible_of_mem_form (folded_mem_binarized rule) left) member

/-! ## Words of the symbols of a folded form -/

/-- Where all symbols of a form derive words, so do those of the folded form. -/
theorem mem_productive_of_mem_fold (symbols : ∀ s ∈ form, s ∈ g.binarized.productive)
    (member : s ∈ fold g.blockTable form) : s ∈ g.binarized.productive := by
  induction form using List.reverseRecOn generalizing s with
  | nil => simp [fold_of_length_le] at member
  | append_singleton earlier last inductionHypothesis =>
    rcases fold_cases g.blockTable (earlier ++ [last]) with
      same | ⟨block, m, final, entry, shape, folded⟩
    · rw [same] at member
      exact symbols s member
    · obtain ⟨rfl, sameLast⟩ := List.append_inj' shape rfl
      rw [folded, ← List.singleton_inj.mp sameLast] at member
      rcases List.mem_cons.mp member with rfl | isLast
      · refine mem_productive_of_right (blockRule_mem_binarized entry) fun s => ?_
        exact inductionHypothesis fun s inside => symbols s (List.mem_append_left _ inside)
      · exact symbols s (List.mem_append_right _ isLast)

/-- Where all symbols of a form derive words, so do those of the form with isolated terminals. -/
theorem Valid.mem_productive_of_mem_isolate (valid : g.Valid)
    (symbols : ∀ s ∈ form, s ∈ g.binarized.productive)
    (member : s ∈ isolate g.proxyTable form) : s ∈ g.binarized.productive := by
  rcases mem_isolate member with old | ⟨t, n, entry, rfl⟩
  · exact symbols s old
  · have rule := proxyRule_mem_binarized entry
    refine mem_productive_of_right rule fun s isLetter => ?_
    have declared := valid.binarized.right_declared _ rule s isLetter
    obtain rfl := List.mem_singleton.mp isLetter
    exact terminal_mem_productive declared

/-- What is productive stays so after folding. -/
theorem Valid.mem_productive_binarized (valid : g.Valid) (productive : s ∈ g.productive) :
    s ∈ g.binarized.productive := by
  induction productive using productive_induction with
  | terminal t declared => exact terminal_mem_productive declared
  | rule p rule _ right =>
    refine mem_productive_of_right (folded_mem_binarized rule) fun s => ?_
    exact mem_productive_of_mem_fold fun s => valid.mem_productive_of_mem_isolate right

/-- Folding keeps a grammar trim. -/
theorem Trim.binarized (trim : g.Trim) (valid : g.Valid) : g.binarized.Trim where
  accessible := by
    have lefts : ∀ p ∈ g.productions, .nonTerminal p.left ∈ g.binarized.accessible :=
      fun p rule => mem_accessible_binarized (trim.accessible _ (valid.left_mem p rule))
    rintro (n | t) declared
    · rcases mem_nonTerminals_binarized_iff.mp declared with old | ⟨t, entry⟩ | ⟨block, entry⟩
      · exact mem_accessible_binarized (trim.accessible (.nonTerminal n) old)
      · obtain ⟨p, rule, long, inside⟩ := exists_proxy_iff.mp ⟨n, entry⟩
        refine mem_accessible_of_mem_form (folded_mem_binarized rule) (lefts p rule) ?_
        rw [isolate_of_lt_length long, ← isolateSymbol_of_mem_proxyTable entry]
        exact List.mem_map_of_mem inside
      · obtain ⟨p, rule, member⟩ := exists_of_mem_blockTable entry
        exact block_mem_accessible (folded_mem_binarized rule) (lefts p rule)
          (fun block inside => mem_keys_blockTable_iff.mpr ⟨p, rule, inside⟩) member entry
    · exact mem_accessible_binarized (trim.accessible (.terminal t) declared)
  productive := by
    intro p rule
    have isolated : ∀ q ∈ g.productions, ∀ s ∈ isolate g.proxyTable q.right,
        s ∈ g.binarized.productive := fun q old s => valid.mem_productive_of_mem_isolate
      fun s member => valid.mem_productive_binarized (trim.productive q old s member)
    rcases mem_binaryRules_iff.mp (mem_binarized_iff.mp rule) with
      ⟨q, old, rfl⟩ | ⟨t, n, entry, rfl⟩ | ⟨block, n, entry, rfl⟩
    · exact fun s => mem_productive_of_mem_fold (isolated q old)
    · intro s isLetter
      have declared := valid.binarized.right_declared _ rule s isLetter
      obtain rfl := List.mem_singleton.mp isLetter
      exact terminal_mem_productive declared
    · obtain ⟨q, old, member⟩ := exists_of_mem_blockTable entry
      exact fun s => mem_productive_of_mem_fold fun s inside =>
        isolated q old s (subset_of_mem_blocks member inside)

end Chomsky.Grammar
