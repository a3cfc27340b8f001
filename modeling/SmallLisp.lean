import SmallLisp.Main
import SmallLisp.Session
import SmallLisp.Prompt.Highlight
import SmallLisp.Proofs.RoundTrip
import SmallLisp.Proofs.Isolation
import SmallLisp.Proofs.Concatenation
import SmallLisp.Proofs.Segmentation
import SmallLisp.Proofs.Reprinting
import SmallLisp.Proofs.Sessions
import SmallLisp.Proofs.LexicalScope
import SmallLisp.Proofs.Truncation
import SmallLisp.Proofs.Spelling
import SmallLisp.Proofs.Constructs
import SmallLisp.Proofs.Places
import SmallLisp.Proofs.Diagnostics
import SmallLisp.Proofs.ReadBack
import SmallLisp.Proofs.Application
import SmallLisp.Proofs.Interference
import SmallLisp.Proofs.Verdicts
import SmallLisp.Proofs.Readiness
import SmallLisp.Proofs.Faults
import SmallLisp.Proofs.Extents
import SmallLisp.Proofs.Transcripts
import SmallLisp.Proofs.Identity
import SmallLisp.Proofs.Refusals
import SmallLisp.Proofs.Unpainted
import SmallLisp.Proofs.Colours
import SmallLisp.Proofs.Reordering
import SmallLisp.Proofs.Chronicle
import SmallLisp.Proofs.Correspondence.Renumbering
import SmallLisp.Proofs.Fuel
import SmallLisp.Proofs.Exchange
import SmallLisp.Proofs.Simultaneity
import SmallLisp.Proofs.Filling
import SmallLisp.Proofs.Correspondence.Converse
import SmallLisp.Proofs.Lowercase
import SmallLisp.Proofs.Words
import SmallLisp.Proofs.Names
import SmallLisp.Proofs.Completions
import SmallLisp.Proofs.Equality
import SmallLisp.Proofs.Arguments
import SmallLisp.Proofs.Parameters
import SmallLisp.Proofs.Indexed.Agreement
