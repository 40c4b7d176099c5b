import Lindenmayer.Grammar.Reader
import Lindenmayer.Growth.Cursor
import Lindenmayer.Random.WordList
import Lindenmayer.Proofs.Alphabet.Registry
import Lindenmayer.Proofs.Alphabet.Layout
import Lindenmayer.Proofs.Alphabet.Lookup
import Lindenmayer.Proofs.Alphabet.Slots
import Lindenmayer.Proofs.Alphabet.Encoding
import Lindenmayer.Proofs.LSystem.Productions
import Lindenmayer.Proofs.Alphabet.Entries
import Lindenmayer.Proofs.Alphabet.RoundTrip
import Lindenmayer.Proofs.Alphabet.Known
import Lindenmayer.Proofs.Grammar.Rewriting
import Lindenmayer.Proofs.Grammar.Tidy
import Lindenmayer.Proofs.LSystem.Derivation
import Lindenmayer.Proofs.LSystem.Meaning
import Lindenmayer.Proofs.Growth.Lanes
import Lindenmayer.Proofs.Growth.Operations
import Lindenmayer.Proofs.Growth.Outline
import Lindenmayer.Proofs.Growth.Generations
import Lindenmayer.Proofs.Growth.Replay
import Lindenmayer.Proofs.Growth.Schedule
import Lindenmayer.Proofs.Sampler.Draws
import Lindenmayer.Proofs.LSystem.Derivability
import Lindenmayer.Proofs.Growth.Derivations
import Lindenmayer.Proofs.Growth.Closure
import Lindenmayer.Proofs.Alphabet.Brackets
import Lindenmayer.Proofs.Growth.Homomorphism
import Lindenmayer.Proofs.Growth.Nesting
import Lindenmayer.Proofs.LSystem.Failures
import Lindenmayer.Proofs.LSystem.Acceptance
import Lindenmayer.Proofs.LSystem.RuleTable
import Lindenmayer.Proofs.Growth.Preparation
import Lindenmayer.Proofs.Growth.Agreement
import Lindenmayer.Proofs.Growth.HighestLevels
import Lindenmayer.Proofs.LSystem.Pruning
import Lindenmayer.Proofs.Growth.Pruning
import Lindenmayer.Proofs.Text.Fields
import Lindenmayer.Proofs.Decimal.Text
import Lindenmayer.Proofs.Decimal.Packing
import Lindenmayer.Proofs.Decimal.Rounding
import Lindenmayer.Proofs.Decimal.Scientific
import Lindenmayer.Proofs.Decimal.Interval
import Lindenmayer.Proofs.Decimal.RoundTrip
import Lindenmayer.Proofs.Grammar.Printing
import Lindenmayer.Proofs.LSystem.Listing
import Lindenmayer.Proofs.LSystem.Pools
import Lindenmayer.Proofs.LSystem.Determinacy
import Lindenmayer.Proofs.Growth.Determinacy
import Lindenmayer.Proofs.Growth.Capacities
import Lindenmayer.Proofs.Growth.Writing
import Lindenmayer.Proofs.LSystem.Draws
import Lindenmayer.Proofs.Name.ByteOrder
import Lindenmayer.Proofs.Alphabet.Numbering
import Lindenmayer.Proofs.Alphabet.Classification
import Lindenmayer.Proofs.Buffer.Histories
import Lindenmayer.Proofs.Growth.Spreading
import Lindenmayer.Proofs.Growth.Views
import Lindenmayer.Proofs.LSystem.Countdown
import Lindenmayer.Proofs.Grammar.Groups
import Lindenmayer.Proofs.Grammar.Collection
import Lindenmayer.Proofs.Growth.RuleOrder
import Lindenmayer.Proofs.Decimal.Order
import Lindenmayer.Proofs.Decimal.Arithmetic
import Lindenmayer.Proofs.Sampler.Weights
import Lindenmayer.Proofs.Sampler.Shares
import Lindenmayer.Proofs.Sampler.Forms
import Lindenmayer.Proofs.Sampler.Tables
import Lindenmayer.Proofs.LSystem.Tables
import Lindenmayer.Proofs.Decimal.Comparison
import Lindenmayer.Proofs.Sampler.Search
import Lindenmayer.Proofs.Name.Splitting
import Lindenmayer.Proofs.LSystem.Concatenation
